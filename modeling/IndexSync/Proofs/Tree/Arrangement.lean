import IndexSync.Proofs.Tree.Parts
import IndexSync.Proofs.Tree.Telling

/-!
# How nodes are arranged

Which nodes come after which in a finished tree, whatever is walked.

- `Layout.Awaits`, `Layout.Forks` — the nodes that make the next moves, and that each move is
  made by one of them only.
- `FilterRule.Allows`, `Layout.Arranged` — down to the next document part, moves are made
  once, and filters keep to a rule: none at all, or each asks for less than the one around it.
- `Branches.front`, `Tree.arranged`, `Part.arranged` — finished trees are arranged so.
- `Arranged.reach` — and so is all that is in reach, under the same rule or a stricter one.
-/

namespace IndexSync

open Relation (ReflTransGen)

/-! ## Rules for filters -/

namespace FilterRule

/-- Filters that ask for these ordinals may stand under the rule. -/
def Allows : FilterRule → OrdinalSet → Prop
  | never, _ => False
  | always, _ => True
  | below enclosing, relevance => relevance.subset enclosing = true ∧ relevance ≠ enclosing

/-- Nothing matters that does not matter to the enclosing filter. -/
def Bounds (rule : FilterRule) (F : OrdinalSet → Prop) : Prop :=
  ∀ enclosing, rule = below enclosing → ∀ bits, F bits → bits.subset enclosing = true

variable {rule : FilterRule} {relevance : OrdinalSet} {F G : OrdinalSet → Prop}

theorem Bounds.mono (h : rule.Bounds F) (hsub : ∀ bits, G bits → F bits) : rule.Bounds G :=
  fun enclosing hrule bits hbits => h enclosing hrule bits (hsub bits hbits)

theorem Bounds.of_isUnion (h : rule.Bounds F) (hunion : relevance.IsUnion F) :
    rule.Bounds (· = relevance) := by
  rintro enclosing hrule _ rfl
  refine OrdinalSet.subset_iff.mpr fun n hn => ?_
  obtain ⟨bits, hbits, hmem⟩ := (hunion n).mp hn
  exact OrdinalSet.subset_iff.mp (h enclosing hrule bits hbits) n hmem

theorem bounds_inside (hunion : relevance.IsUnion F) : (rule.inside relevance).Bounds F := by
  intro enclosing hrule bits hbits
  cases rule <;> cases hrule <;> exact hunion.subset hbits

theorem never_bounds : never.Bounds F := nofun

theorem always_bounds : always.Bounds F := nofun

/-- Where a filter belongs, it may stand. -/
theorem allows_of_narrows (h : rule.Bounds (· = relevance))
    (hnarrow : rule.narrows relevance = true) : rule.Allows relevance := by
  cases rule with
  | never => cases hnarrow
  | always => trivial
  | below enclosing =>
      refine ⟨h enclosing rfl relevance rfl, ?_⟩
      rintro rfl
      rw [narrows, OrdinalSet.subset_refl] at hnarrow
      cases hnarrow

/-- Where none belongs, the same matters inside as around. -/
theorem inside_of_free (h : rule.Bounds (· = relevance)) (hfree : rule.narrows relevance = false) :
    rule.inside relevance = rule := by
  cases rule with
  | never => rfl
  | always => cases hfree
  | below enclosing =>
      have hsub : relevance.subset enclosing = true := h enclosing rfl relevance rfl
      have hsup : enclosing.subset relevance = true := by simpa [narrows] using hfree
      refine congrArg below (OrdinalSet.ext_contains fun n => ?_)
      exact Bool.eq_iff_iff.mpr
        ⟨OrdinalSet.subset_iff.mp hsub n, OrdinalSet.subset_iff.mp hsup n⟩

/-- A filter allowed inside an allowed one is allowed around it as well. -/
theorem Allows.of_inside {nested : OrdinalSet} (h : rule.Allows relevance)
    (hnested : (rule.inside relevance).Allows nested) : rule.Allows nested := by
  cases rule with
  | never => cases h
  | always => trivial
  | below enclosing =>
      obtain ⟨hsub, hne⟩ := h
      obtain ⟨hsub', hne'⟩ := hnested
      refine ⟨OrdinalSet.subset_trans hsub' hsub, ?_⟩
      rintro rfl
      exact hne' (OrdinalSet.ext_contains fun n => Bool.eq_iff_iff.mpr
        ⟨OrdinalSet.subset_iff.mp hsub' n, OrdinalSet.subset_iff.mp hsub n⟩)

end FilterRule

namespace Layout

variable {schema : Schema} {mapping : Mapping schema} {l : Layout} {rule : FilterRule}
  {relevance : OrdinalSet} {ended : Option OrdinalSet} {continuation : Option NodeId}
  {ids : List NodeId} {id k u v : NodeId} {move : Move} {node : Node}

/-! ## Places of parts -/

/-- A part is a union; if there is more than one node in it, one is a mark. -/
theorem Sound.get?_of_isPart (hsound : l.Sound mapping []) (h : l.IsPart id) :
    ∃ children, l.arena.get? id = some (.union children) ∧
      (1 < children.length → ∃ k ∈ children, l.arena.get? k = some .reindex) := by
  obtain ⟨c, hc⟩ := h
  obtain ⟨mark, ends, embedding, hplace, hmark, -⟩ := hsound.laid hc nofun
  refine ⟨_, hplace, fun hmany => ?_⟩
  obtain ⟨k, hk⟩ : ∃ k, k ∈ mark := by
    refine List.exists_mem_of_length_pos ?_
    have hle : embedding.toList.length ≤ 1 := by cases embedding <;> simp
    rw [List.length_append] at hmany
    omega
  exact ⟨k, List.mem_append_left _ hk, (hmark.of_mem hk).2⟩

theorem Sound.not_isPart (hsound : l.Sound mapping []) (hnode : l.arena.get? id = some node)
    (hunion : ∀ children, node ≠ .union children) : ¬ l.IsPart id := by
  intro hpart
  obtain ⟨children, hid, -⟩ := hsound.get?_of_isPart hpart
  cases hid.symm.trans hnode
  exact hunion children rfl

/-- Nodes that make a move are no parts. -/
theorem Sound.not_isPart_of_move? (hsound : l.Sound mapping [])
    (hnode : l.arena.get? id = some node) (hmove : node.move? = some move) : ¬ l.IsPart id := by
  refine hsound.not_isPart hnode ?_
  rintro children rfl
  cases hmove

/-- Several nodes that are no marks make up no part. -/
theorem Sound.not_isPart_of_union (hsound : l.Sound mapping [])
    (hunion : l.arena.get? id = some (.union ids)) (hmany : 1 < ids.length)
    (hids : ∀ k ∈ ids, l.arena.get? k ≠ some .reindex) : ¬ l.IsPart id := by
  intro hpart
  obtain ⟨children, hid, hmark⟩ := hsound.get?_of_isPart hpart
  cases hid.symm.trans hunion
  obtain ⟨k, hk, hreindex⟩ := hmark hmany
  exact hids k hk hreindex

/-! ## Landings -/

/-- A landing goes on with what there is to do at one of its types. -/
theorem Lands.next {static : TypeName} {concretes : List TypeName}
    (h : l.Lands rule static concretes ended continuation (some id)) :
    ∃ dispatch, l.arena.get? id = some (.type static dispatch) ∧
      ∀ next ∈ (Node.type static dispatch).children, ∃ c ∈ concretes,
        l.Enters rule ended continuation c (some next) := by
  cases h with
  | @somewhere _ dispatch hid hall hkeys =>
      refine ⟨dispatch, hid, fun next hnext => ?_⟩
      obtain ⟨c, hc⟩ := SortedMap.exists_of_mem_contents hnext
      have hmem := hkeys c next hc
      exact ⟨c, hmem, hc ▸ hall c hmem⟩

/-! ## Next moves -/

/-- The node `v` makes the next move behind a node: filters and unions lead there, and
document parts are not entered. -/
inductive Awaits (l : Layout) : NodeId → Move → NodeId → Prop
  | here {id : NodeId} {node : Node} {move : Move} : l.arena.get? id = some node →
      node.move? = some move → Awaits l id move id
  | behind {id next v : NodeId} {node : Node} {move : Move} : ¬ l.IsPart id →
      l.arena.get? id = some node → node.move? = none → next ∈ node.children →
      Awaits l next move v → Awaits l id move v

/-- Each next move is made by one node only. -/
def Forks (l : Layout) (ids : List NodeId) : Prop :=
  ∀ id ∈ ids, ∀ id' ∈ ids, ∀ move v v', l.Awaits id move v → l.Awaits id' move v' → v = v'

theorem Awaits.of_move? (h : l.Awaits id move v) (hnode : l.arena.get? id = some node)
    {own : Move} (hmove : node.move? = some own) : v = id ∧ move = own := by
  cases h with
  | here hnode' hmove' =>
      cases hnode'.symm.trans hnode
      exact ⟨rfl, Option.some.inj (hmove'.symm.trans hmove)⟩
  | behind _ hnode' hnone =>
      cases hnode'.symm.trans hnode
      exact absurd (hnone.symm.trans hmove) nofun

theorem Awaits.of_union (h : l.Awaits id move v) (hunion : l.arena.get? id = some (.union ids)) :
    ¬ l.IsPart id ∧ ∃ next ∈ ids, l.Awaits next move v := by
  cases h with
  | here hnode hmove =>
      cases hnode.symm.trans hunion
      cases hmove
  | behind hpart hnode _ hnext hawait =>
      cases hnode.symm.trans hunion
      exact ⟨hpart, _, hnext, hawait⟩

theorem Awaits.of_ifDirty (h : l.Awaits id move v)
    (hfilter : l.arena.get? id = some (.ifDirty relevance k)) : l.Awaits k move v := by
  cases h with
  | here hnode hmove =>
      cases hnode.symm.trans hfilter
      cases hmove
  | behind _ hnode _ hnext hawait =>
      cases hnode.symm.trans hfilter
      cases List.mem_singleton.mp hnext
      exact hawait

theorem not_awaits_reindex (hreindex : l.arena.get? id = some .reindex) : ¬ l.Awaits id move v := by
  intro h
  cases h with
  | here hnode hmove =>
      cases hnode.symm.trans hreindex
      cases hmove
  | behind _ hnode _ hnext =>
      cases hnode.symm.trans hreindex
      cases hnext

theorem Forks.of_awaits {ids' : List NodeId} (h : l.Forks ids)
    (hsub : ∀ id' ∈ ids', ∀ move v, l.Awaits id' move v → ∃ id ∈ ids, l.Awaits id move v) :
    l.Forks ids' := by
  intro id hid id' hid' move v v' hv hv'
  obtain ⟨k, hk, hv⟩ := hsub id hid move v hv
  obtain ⟨k', hk', hv'⟩ := hsub id' hid' move v' hv'
  exact h k hk k' hk' move v v' hv hv'

theorem Filters.awaits (h : l.Filters rule relevance (some id) (some u)) (hv : l.Awaits u move v) :
    l.Awaits id move v := by
  cases h with
  | free => exact hv
  | behind _ hu => exact hv.of_ifDirty hu

theorem Joins.awaits (h : l.Joins ids (some u)) (hv : l.Awaits u move v) :
    ∃ id ∈ ids, l.Awaits id move v := by
  cases h with
  | one => exact ⟨u, List.mem_singleton_self u, hv⟩
  | union hu => exact (hv.of_union hu).2

/-- Among branches with different moves, each move is made once. -/
theorem Branches.forks {branches : List (Move × OrdinalSet × Trie)}
    (h : l.Branches schema rule branches ids) (hnodup : (branches.map (·.1)).Nodup) :
    l.Forks ids := by
  -- the node of a branch makes the move of that branch, and no other next to it does
  have hmoves : ∀ {branches ids}, l.Branches schema rule branches ids →
      ∀ id ∈ ids, ∀ move v, l.Awaits id move v → move ∈ branches.map (·.1) := by
    intro branches ids h id hid move v hv
    obtain ⟨own, relevance, next, id?, hmem, hbranch, hfilter⟩ := h.of_mem hid
    obtain ⟨u, rfl⟩ := hfilter.exists_before
    obtain ⟨node, hnode, hmove⟩ := hbranch.exists_move?
    obtain ⟨-, rfl⟩ := (hfilter.awaits hv).of_move? hnode hmove
    exact List.mem_map_of_mem hmem
  induction branches generalizing ids with
  | nil =>
      rw [Branches] at h
      subst h
      nofun
  | cons b rest ih =>
      obtain ⟨own, relevance, next⟩ := b
      obtain ⟨hnew, hrest⟩ := List.nodup_cons.mp hnodup
      rw [Branches] at h
      obtain ⟨id?, here, more, hbranch, hfilter, hmore, rfl⟩ := h
      have hhere : ∀ id ∈ here.toList, ∀ move v, l.Awaits id move v →
          move = own ∧ id? = some v := by
        intro id hid move v hv
        cases Option.mem_toList.mp hid
        obtain ⟨u, rfl⟩ := hfilter.exists_before
        obtain ⟨node, hnode, hmove⟩ := hbranch.exists_move?
        obtain ⟨rfl, rfl⟩ := (hfilter.awaits hv).of_move? hnode hmove
        exact ⟨rfl, rfl⟩
      intro id hid id' hid' move v v' hv hv'
      rcases List.mem_append.mp hid with hid | hid <;>
        rcases List.mem_append.mp hid' with hid' | hid'
      · exact Option.some.inj ((hhere id hid move v hv).2.symm.trans (hhere id' hid' move v' hv').2)
      · obtain ⟨rfl, -⟩ := hhere id hid move v hv
        exact absurd (hmoves hmore id' hid' move v' hv') hnew
      · obtain ⟨rfl, -⟩ := hhere id' hid' move v' hv'
        exact absurd (hmoves hmore id hid move v hv) hnew
      · exact ih hmore hrest id hid id' hid' move v v' hv hv'

/-! ## Arranged nodes -/

/-- Down to the next document part, the next move behind a node is made by one node, and
filters keep to the rule. -/
inductive Arranged (l : Layout) : FilterRule → NodeId → Prop
  | part {rule : FilterRule} {id : NodeId} : l.IsPart id → Arranged l rule id
  | filter {rule : FilterRule} {relevance : OrdinalSet} {nested id : NodeId} :
      l.arena.get? id = some (.ifDirty relevance nested) → rule.Allows relevance →
      l.Forks [nested] → Arranged l (rule.inside relevance) nested → Arranged l rule id
  | other {rule : FilterRule} {node : Node} {id : NodeId} :
      l.arena.get? id = some node → node.relevance? = none → l.Forks node.children →
      (∀ next ∈ node.children, Arranged l rule next) → Arranged l rule id

/-- Nodes that may come next, side by side. -/
structure Front (l : Layout) (rule : FilterRule) (ids : List NodeId) : Prop where
  arranged : ∀ id ∈ ids, l.Arranged rule id
  forks : l.Forks ids
  unmarked : ∀ id ∈ ids, l.arena.get? id ≠ some .reindex

theorem Front.singleton (h : l.Front rule ids) (hid : id ∈ ids) : l.Front rule [id] where
  arranged := List.forall_mem_singleton.mpr (h.arranged id hid)
  forks := h.forks.of_awaits fun id' hid' _ _ hv => by
    cases List.mem_singleton.mp hid'
    exact ⟨id, hid, hv⟩
  unmarked := List.forall_mem_singleton.mpr (h.unmarked id hid)

theorem Filters.unmarked (h : l.Filters rule relevance (some id) (some u))
    (hid : l.arena.get? id ≠ some .reindex) : l.arena.get? u ≠ some .reindex := by
  cases h with
  | free => exact hid
  | behind _ hu => exact fun hmark => absurd (hu.symm.trans hmark) nofun

/-- A filter where one belongs, in front of nodes under the rule inside it. -/
theorem Filters.front (h : l.Filters rule relevance (some id) (some u))
    (hbounds : rule.Bounds (· = relevance)) (hid : l.Front (rule.inside relevance) [id]) :
    l.Front rule [u] := by
  have hunmarked := h.unmarked (hid.unmarked id (List.mem_singleton_self id))
  cases h with
  | free hfree =>
      rw [FilterRule.inside_of_free hbounds hfree] at hid
      exact hid
  | behind hnarrow hu =>
      have hid' := hid.arranged id (List.mem_singleton_self id)
      refine ⟨?_, ?_, ?_⟩
      · exact List.forall_mem_singleton.mpr
          (.filter hu (FilterRule.allows_of_narrows hbounds hnarrow) hid.forks hid')
      · refine hid.forks.of_awaits fun u' hu' move v hv => ?_
        cases List.mem_singleton.mp hu'
        exact ⟨id, List.mem_singleton_self id, hv.of_ifDirty hu⟩
      · exact List.forall_mem_singleton.mpr hunmarked

theorem Joins.front (h : l.Joins ids (some u)) (hids : l.Front rule ids) : l.Front rule [u] := by
  have hforks : l.Forks [u] := hids.forks.of_awaits fun u' hu' move v hv => by
    cases List.mem_singleton.mp hu'
    exact h.awaits hv
  cases h with
  | one => exact hids
  | union hu =>
      refine ⟨?_, hforks, ?_⟩
      · exact List.forall_mem_singleton.mpr (.other hu rfl hids.forks hids.arranged)
      · exact List.forall_mem_singleton.mpr fun hmark => absurd (hu.symm.trans hmark) nofun

section

variable (hsound : l.Sound mapping [])
include hsound

theorem front_of_isPart (h : l.IsPart id) : l.Front rule [id] := by
  obtain ⟨children, hid, -⟩ := hsound.get?_of_isPart h
  refine ⟨List.forall_mem_singleton.mpr (.part h), ?_, ?_⟩
  · intro id' hid' _ _ _ _ _ hv
    cases List.mem_singleton.mp hid'
    exact absurd h (hv.of_union hid).1
  · exact List.forall_mem_singleton.mpr fun hmark => absurd (hid.symm.trans hmark) nofun

theorem Owns.unmarked {c : TypeName} (h : l.Owns rule c ended (some id)) :
    l.arena.get? id ≠ some .reindex := by
  cases h with
  | ended hknown hfilter =>
      obtain ⟨place, rfl⟩ := hfilter.exists_before
      obtain ⟨children, hplace, -⟩ := hsound.get?_of_isPart ⟨c, hknown⟩
      exact hfilter.unmarked fun hmark => absurd (hplace.symm.trans hmark) nofun

/-- No move is made before the part of an object is entered. -/
theorem Owns.not_awaits {c : TypeName} (h : l.Owns rule c ended (some id)) :
    ¬ l.Awaits id move v := by
  intro hv
  cases h with
  | ended hknown hfilter =>
      obtain ⟨place, rfl⟩ := hfilter.exists_before
      obtain ⟨children, hplace, -⟩ := hsound.get?_of_isPart ⟨c, hknown⟩
      exact ((hfilter.awaits hv).of_union hplace).1 ⟨c, hknown⟩

theorem Owns.front {c : TypeName} (h : l.Owns rule c ended (some id))
    (hbounds : ∀ relevance ∈ ended, rule.Bounds (· = relevance)) : l.Front rule [id] := by
  cases h with
  | ended hknown hfilter =>
      obtain ⟨place, rfl⟩ := hfilter.exists_before
      exact hfilter.front (hbounds _ rfl) (front_of_isPart hsound ⟨c, hknown⟩)

/-- Where a type is entered, its own part comes before what continues, which alone makes
moves. -/
theorem Enters.front {c : TypeName} (h : l.Enters rule ended continuation c (some id))
    (hbounds : ∀ relevance ∈ ended, rule.Bounds (· = relevance))
    (hcontinue : l.Front rule continuation.toList) :
    l.Front rule [id] ∧ ∀ move v, l.Awaits id move v →
      ∃ k ∈ continuation.toList, l.Awaits k move v := by
  obtain ⟨own, hown, hjoin⟩ := h
  have hawait : ∀ k ∈ own.toList ++ continuation.toList, ∀ move v, l.Awaits k move v →
      ∃ k ∈ continuation.toList, l.Awaits k move v := by
    intro k hk move v hv
    rcases List.mem_append.mp hk with hk | hk
    · cases Option.mem_toList.mp hk
      exact absurd hv (hown.not_awaits hsound)
    · exact ⟨k, hk, hv⟩
  have hown' : ∀ k ∈ own.toList, l.Front rule [k] := by
    intro k hk
    cases Option.mem_toList.mp hk
    exact hown.front hsound hbounds
  have hfront : l.Front rule (own.toList ++ continuation.toList) := by
    refine ⟨?_, hcontinue.forks.of_awaits hawait, ?_⟩
    · exact List.forall_mem_append.mpr
        ⟨fun k hk => (hown' k hk).arranged k (List.mem_singleton_self k), hcontinue.arranged⟩
    · exact List.forall_mem_append.mpr
        ⟨fun k hk => (hown' k hk).unmarked k (List.mem_singleton_self k), hcontinue.unmarked⟩
  refine ⟨hjoin.front hfront, fun move v hv => ?_⟩
  obtain ⟨k, hk, hv⟩ := hjoin.awaits hv
  exact hawait k hk move v hv

theorem Lands.arranged {static : TypeName} {concretes : List TypeName}
    (h : l.Lands rule static concretes ended continuation (some id))
    (hbounds : ∀ relevance ∈ ended, rule.Bounds (· = relevance))
    (hcontinue : l.Front rule continuation.toList) : l.Arranged rule id := by
  obtain ⟨dispatch, hid, hnext⟩ := h.next
  refine .other hid rfl ?_ fun next hmem => ?_
  · refine hcontinue.forks.of_awaits fun next hmem move v hv => ?_
    obtain ⟨c, -, henter⟩ := hnext next hmem
    exact (henter.front hsound hbounds hcontinue).2 move v hv
  · obtain ⟨c, -, henter⟩ := hnext next hmem
    have hfront := (henter.front hsound hbounds hcontinue).1
    exact hfront.arranged next (List.mem_singleton_self next)

theorem Makes.arranged (h : l.Makes schema rule ended continuation move (some id))
    (hbounds : ∀ relevance ∈ ended, rule.Bounds (· = relevance))
    (hcontinue : l.Front rule continuation.toList) : l.Arranged rule id := by
  cases move with
  | read | extract | cast =>
      cases h with
      | some hid => exact .other hid rfl hcontinue.forks hcontinue.arranged
  | land => exact Lands.arranged hsound h hbounds hcontinue

/-- Branches may come next. -/
theorem Branches.front {t : Trie} {S : SequenceSet} (hmerge : t.Merges S)
    (h : l.Branches schema rule t.branches ids)
    (hbounds : rule.Bounds fun bits => ∃ ms, S ms bits) : l.Front rule ids := by
  -- on the trie; what continues after the move of a branch is arranged inside its filter
  induction hmerge generalizing rule ids with
  | @fork S ended branches _ _ hnodup _ hunion hnext ih =>
      have hbranches : ∀ id ∈ ids, l.Front rule [id] := by
        intro id hid
        obtain ⟨move, relevance, t, id?, hmem, hbranch, hfilter⟩ := h.of_mem hid
        obtain ⟨u, rfl⟩ := hfilter.exists_before
        have hmoves := hunion move relevance t hmem
        have hinside : (rule.inside relevance).Bounds fun bits => ∃ ms, S.after move ms bits :=
          FilterRule.bounds_inside hmoves
        obtain ⟨node, hnode, hmove⟩ := hbranch.exists_move?
        have harranged : l.Arranged (rule.inside relevance) u := by
          cases t with
          | fork ended' branches' =>
              rw [Branch] at hbranch
              obtain ⟨ids', continuation, hids, hjoin, hmake⟩ := hbranch
              have hfront := ih move relevance _ hmem hids hinside
              refine hmake.arranged hsound ?_ ?_
              · rintro relevance' rfl
                have hended := ((hnext move relevance _ hmem).of_ended rfl).2
                exact (hinside.mono fun bits hbits => ⟨[], hbits⟩).of_isUnion hended
              · cases continuation with
                | none => exact ⟨nofun, nofun, nofun⟩
                | some k => exact hjoin.front hfront
        have hfront : l.Front (rule.inside relevance) [u] := by
          refine ⟨List.forall_mem_singleton.mpr harranged, ?_, ?_⟩
          · intro u' hu' u'' hu'' move' v v' hv hv'
            cases List.mem_singleton.mp hu'
            cases List.mem_singleton.mp hu''
            exact (hv.of_move? hnode hmove).1.trans (hv'.of_move? hnode hmove).1.symm
          · refine List.forall_mem_singleton.mpr fun hmark => ?_
            cases hmark.symm.trans hnode
            cases hmove
        exact hfilter.front
          ((hbounds.mono fun bits ⟨ms, hms⟩ => ⟨move :: ms, hms⟩).of_isUnion hmoves) hfront
      exact ⟨fun id hid => (hbranches id hid).arranged id (List.mem_singleton_self id),
        h.forks hnodup, fun id hid => (hbranches id hid).unmarked id (List.mem_singleton_self id)⟩

/-- Trees are arranged from their root on. -/
theorem Tree.arranged {trie : Trie} {S : SequenceSet} {static : TypeName}
    {concretes : List TypeName} (h : l.Tree schema rule static concretes trie (some id))
    (hmerge : trie.Merges S) (hbounds : rule.Bounds fun bits => ∃ ms, S ms bits) :
    l.Arranged rule id := by
  obtain ⟨ids, continuation, hids, hjoin, hland⟩ := h
  have hfront := hids.front hsound hmerge hbounds
  refine hland.arranged hsound ?_ ?_
  · intro relevance hended
    exact (hbounds.mono fun bits hbits => ⟨[], hbits⟩).of_isUnion (hmerge.of_ended hended).2
  · cases continuation with
    | none => exact ⟨nofun, nofun, nofun⟩
    | some k => exact hjoin.front hfront

/-- What a part goes on with is arranged without filters. -/
theorem IsPart.arranged (h : l.IsPart id) (hnode : l.arena.get? id = some node) :
    l.Forks node.children ∧ ∀ next ∈ node.children, l.Arranged .never next := by
  obtain ⟨c, hc⟩ := h
  obtain ⟨mark, ends, embedding, hplace, hmark, hends, hjoin⟩ := hsound.laid hc nofun
  cases hplace.symm.trans hnode
  have hfront : l.Front .never embedding.toList := by
    have hends' := hends.front hsound (merges_embeddingTrie mapping c) FilterRule.never_bounds
    cases embedding with
    | none => exact ⟨nofun, nofun, nofun⟩
    | some k => exact hjoin.front hends'
  constructor
  · refine hfront.forks.of_awaits fun next hnext move v hv => ?_
    rcases List.mem_append.mp hnext with hnext | hnext
    · exact absurd hv (not_awaits_reindex (hmark.of_mem hnext).2)
    · exact ⟨next, hnext, hv⟩
  · intro next hnext
    rcases List.mem_append.mp hnext with hnext | hnext
    · exact .other (hmark.of_mem hnext).2 rfl nofun nofun
    · exact hfront.arranged next hnext

/-! ## All that is in reach -/

theorem Arranged.next (h : l.Arranged rule id) (hrefers : l.arena.Refers id k) :
    ∃ rule', l.Arranged rule' k ∧ ∀ relevance, rule'.Allows relevance → rule.Allows relevance := by
  obtain ⟨node, hnode, hk⟩ := hrefers
  cases h with
  | part hpart => exact ⟨.never, (hpart.arranged hsound hnode).2 k hk, fun _ => False.elim⟩
  | filter hid hallow _ hnested =>
      cases hid.symm.trans hnode
      cases List.mem_singleton.mp hk
      exact ⟨_, hnested, fun _ => hallow.of_inside⟩
  | other hid _ _ hall =>
      cases hid.symm.trans hnode
      exact ⟨rule, hall k hk, fun _ hallow => hallow⟩

/-- All that is in reach of an arranged node is arranged, under a rule that allows no more
filters. -/
theorem Arranged.reach (h : l.Arranged rule id) (hreach : l.arena.Reaches id k) :
    ∃ rule', l.Arranged rule' k ∧ ∀ relevance, rule'.Allows relevance → rule.Allows relevance := by
  induction hreach with
  | refl => exact ⟨rule, h, fun _ hallow => hallow⟩
  | tail _ hrefers ih =>
      obtain ⟨rule', h', hstrict⟩ := ih
      obtain ⟨rule'', h'', hstrict'⟩ := h'.next hsound hrefers
      exact ⟨rule'', h'', fun relevance hallow => hstrict relevance (hstrict' relevance hallow)⟩

theorem Arranged.of_ifDirty (h : l.Arranged rule id)
    (hfilter : l.arena.get? id = some (.ifDirty relevance k)) :
    rule.Allows relevance ∧ l.Arranged (rule.inside relevance) k := by
  cases h with
  | part hpart => exact absurd hpart (hsound.not_isPart hfilter nofun)
  | filter hid hallow _ hnested =>
      cases hid.symm.trans hfilter
      exact ⟨hallow, hnested⟩
  | other hid hnone =>
      cases hid.symm.trans hfilter
      cases hnone

/-- Filters in reach are among those that the rule allows. -/
theorem Arranged.allows (h : l.Arranged rule id) (hreach : l.arena.Reaches id u)
    (hfilter : l.arena.get? u = some (.ifDirty relevance k)) : rule.Allows relevance := by
  obtain ⟨rule', h', hstrict⟩ := h.reach hsound hreach
  exact hstrict relevance (h'.of_ifDirty hsound hfilter).1

/-- A filter in reach of what another filter lets pass asks for less. -/
theorem Arranged.narrower {nested k' : NodeId} {relevance' : OrdinalSet} (h : l.Arranged rule id)
    (hreach : l.arena.Reaches id u) (hfilter : l.arena.get? u = some (.ifDirty relevance nested))
    (hreach' : l.arena.Reaches nested k)
    (hfilter' : l.arena.get? k = some (.ifDirty relevance' k')) :
    relevance'.subset relevance = true ∧ relevance' ≠ relevance := by
  obtain ⟨rule', h', -⟩ := h.reach hsound hreach
  obtain ⟨hallow, hnested⟩ := h'.of_ifDirty hsound hfilter
  have hallow' := hnested.allows hsound hreach' hfilter'
  cases rule' with
  | never => cases hallow
  | always | below => exact hallow'

/-- No filter is in reach of a part. -/
theorem IsPart.no_filter (h : l.IsPart id) (hreach : l.arena.Reaches id u) :
    l.arena.get? u ≠ some (.ifDirty relevance k) := by
  intro hfilter
  have hpart : l.Arranged .never id := .part h
  exact hpart.allows hsound hreach hfilter

/-- Each next move behind a node in reach is made by one node only. -/
theorem Arranged.forks (h : l.Arranged rule id) (hreach : l.arena.Reaches id u)
    (hnode : l.arena.get? u = some node) : l.Forks node.children := by
  obtain ⟨rule', h', -⟩ := h.reach hsound hreach
  cases h' with
  | part hpart => exact (hpart.arranged hsound hnode).1
  | filter hu _ hforks =>
      cases hu.symm.trans hnode
      exact hforks
  | other hu _ hforks =>
      cases hu.symm.trans hnode
      exact hforks

end

end Layout

end IndexSync
