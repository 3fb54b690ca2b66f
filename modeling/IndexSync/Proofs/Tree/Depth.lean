import IndexSync.Proofs.Tree.Building
import IndexSync.Proofs.Walk.Termination

/-!
# Depths of trees

A walk through a finished tree soon meets an object: it passes a node of each branch
at most once on its way, and one document part.

- `Arena.Descends`, `Layout.Branch.descends` — branches come after what they go on with, down
  to the next landings.
- `Layout.Part.descends`, `Layout.Part.shallow` — parts go on with branches only.
- `ChangeTree.Built.shallow` — all nodes of a tree.
-/

namespace IndexSync

/-- Down to the next landings, nodes refer to earlier ones. -/
inductive Arena.Descends (a : Arena) : NodeId → Prop
  | landing {id : NodeId} {static : TypeName} {dispatch : SortedMap TypeName NodeId} :
      a.get? id = some (.type static dispatch) → Descends a id
  | onward {id : NodeId} {node : Node} : a.get? id = some node →
      (∀ next ∈ node.children, next < id) → (∀ next ∈ node.children, Descends a next) →
      Descends a id

/-- Where an object has to be met at landings, earlier nodes are all that comes before. -/
theorem Arena.Descends.shallow {a : Arena} {id : NodeId} (h : a.Descends id) :
    a.Shallow (id + 1) id := by
  induction h with
  | landing hid =>
      refine .intro fun node hnode => ?_
      cases hid.symm.trans hnode
      nofun
  | @onward id node hid hlt _ ih =>
      refine .intro fun node' hnode next hnext => ?_
      obtain rfl : node = node' := Option.some.inj (hid.symm.trans hnode)
      have hchild := node.onward_subset_children hnext
      exact (ih next hchild).mono (hlt next hchild)

namespace Layout

variable {l : Layout} {m : Schema} {rule : FilterRule}

/-! ## Single nodes -/

theorem Joins.descends {ids : List NodeId} {id : NodeId} (h : l.Joins ids (Option.some id))
    (hids : ∀ id ∈ ids, l.arena.Descends id) : l.arena.Descends id := by
  cases h with
  | one => exact hids id List.mem_cons_self
  | union hu hlt => exact .onward hu hlt hids

theorem Precedes.descends {node : NodeId → Node} {nested : Option NodeId} {id : NodeId}
    (h : l.Precedes node nested (Option.some id)) (hchildren : ∀ id, (node id).children ⊆ [id])
    (hnested : ∀ id ∈ nested, l.arena.Descends id) : l.arena.Descends id := by
  cases h with
  | @some next _ hu hlt =>
      refine .onward hu ?_ ?_ <;> intro next' hnext <;>
        cases List.mem_singleton.mp (hchildren next hnext)
      · exact hlt
      · exact hnested next rfl

theorem Filters.descends {relevance : OrdinalSet} {id? : Option NodeId} {id : NodeId}
    (h : l.Filters rule relevance id? (Option.some id))
    (hid : ∀ id ∈ id?, l.arena.Descends id) : l.arena.Descends id := by
  cases h with
  | free => exact hid id rfl
  | @behind next _ _ hu hlt =>
      exact .onward hu (List.forall_mem_singleton.mpr hlt)
        (List.forall_mem_singleton.mpr (hid next rfl))

theorem Makes.descends {ended : Option OrdinalSet} {continuation : Option NodeId} {move : Move}
    {id : NodeId} (h : l.Makes m rule ended continuation move (some id))
    (hnested : ∀ id ∈ continuation, l.arena.Descends id) : l.arena.Descends id := by
  have hself : ∀ id : NodeId, [id] ⊆ [id] := fun _ => List.Subset.refl _
  cases move with
  | read name => exact Precedes.descends h hself hnested
  | extract e => exact Precedes.descends h hself hnested
  | cast target => exact Precedes.descends h hself hnested
  | land type =>
      -- an object has to be met here, whatever comes behind
      cases h with
      | somewhere hu => exact .landing hu

/-! ## Branches and parts -/

mutual

theorem Branch.descends {rule : FilterRule} {move : Move} :
    ∀ {t : Trie} {id : NodeId}, l.Branch m rule move t (some id) → l.arena.Descends id
  | .fork _ _, id, h => by
      rw [Branch] at h
      obtain ⟨ids, continuation, hids, hjoin, hmake⟩ := h
      refine hmake.descends fun next hnext => ?_
      cases hnext
      exact hjoin.descends fun id hid => Branches.descends hids id hid

theorem Branches.descends {rule : FilterRule} :
    ∀ {branches : List (Move × OrdinalSet × Trie)} {ids : List NodeId},
      l.Branches m rule branches ids → ∀ id ∈ ids, l.arena.Descends id
  | [], ids, h, id, hid => by
      rw [Branches] at h
      subst h
      cases hid
  | (_, _, _) :: _, ids, h, id, hid => by
      rw [Branches] at h
      obtain ⟨id?, here, more, hbranch, hfilter, hrest, rfl⟩ := h
      rcases List.mem_append.mp hid with hid | hid
      · cases Option.mem_toList.mp hid
        refine hfilter.descends fun next hnext => ?_
        cases hnext
        exact Branch.descends hbranch
      · exact Branches.descends hrest id hid

end

/-- What a part goes on with descends. -/
theorem Part.descends {schema : Schema} {mapping : Mapping schema} {c : TypeName} {place : NodeId}
    (h : l.Part mapping c place) :
    ∃ children, l.arena.get? place = some (.union children) ∧
      ∀ next ∈ children, next < l.arena.size ∧ l.arena.Descends next := by
  obtain ⟨mark, ends, embedding, hplace, hmark, hends, hjoin⟩ := h
  refine ⟨_, hplace, fun next hnext => ?_⟩
  rcases List.mem_append.mp hnext with hnext | hnext
  · obtain ⟨-, hid⟩ := hmark.of_mem hnext
    exact ⟨Arena.lt_size_of_get? hid, .onward hid nofun nofun⟩
  · cases Option.mem_toList.mp hnext
    exact ⟨hjoin.lt_size fun id hid => hends.lt_size hid, hjoin.descends hends.descends⟩

theorem Part.shallow {schema : Schema} {mapping : Mapping schema} {c : TypeName} {place : NodeId}
    (h : l.Part mapping c place) : l.arena.Shallow (l.arena.size + 1) place := by
  obtain ⟨children, hplace, hall⟩ := h.descends
  refine .intro fun node hnode next hnext => ?_
  cases hplace.symm.trans hnode
  obtain ⟨hlt, hnext⟩ := hall next hnext
  exact hnext.shallow.mono hlt

/-! ## All nodes -/

theorem Sound.shallow {schema : Schema} {mapping : Mapping schema} (h : l.Sound mapping [])
    (id : NodeId) : l.arena.Shallow (l.arena.size + 2 + id) id := by
  -- on the node: it is the place of a part, or goes on with earlier nodes only
  induction id using Nat.strongRecOn with
  | ind id ih =>
      rw [Nat.add_right_comm]
      refine .intro fun node hnode next hnext => ?_
      rcases h.ordered hnode with ⟨c, hpart⟩ | hlt
      · have hpart := (h.laid hpart nofun).shallow
        cases hpart with
        | intro hpart => exact (hpart node hnode next hnext).mono (by omega)
      · have hbefore := Nat.succ_le_of_lt (hlt next (node.onward_subset_children hnext))
        exact (ih next hbefore).mono (by omega)

end Layout

/-- However a walk goes on from a node of a tree, it soon meets an object. -/
theorem ChangeTree.Built.shallow {schema : Schema} {mapping : Mapping schema} {filtering : Bool}
    {type : TypeName} {tree : ChangeTree} {l : Layout} (h : tree.Built mapping filtering type l)
    (id : NodeId) : tree.arena.Shallow (2 * tree.arena.size + 1) id := by
  rw [h.arena]
  rcases Nat.lt_or_ge id l.arena.size with hlt | hge
  · exact (h.sound.shallow id).mono (by omega)
  · refine .intro fun node hnode => ?_
    exact absurd (Arena.lt_size_of_get? hnode) (Nat.not_lt.mpr hge)

end IndexSync
