import IndexSync.Proofs.Mapping.Closure
import IndexSync.Proofs.Tree.Depth
import IndexSync.Proofs.Walk.Reordering
import IndexSync.Sample.Clubs

/-!
# Walks compute reachability

A walk through a built tree comes to its end exactly if nothing that it can reach is faulty,
and has then found the objects at the `reindex` nodes that it can reach.  So neither depends
on any order: not on that of children, elements and start nodes, nor on the place that is
taken off the stack next.

- `Walk.Marks` — the objects at the `reindex` nodes that a walk can reach.
- `Walk.eq_finished_iff`, `Walk.mem_entities_iff_marks` — what a walk in any order computes.
- `Walk.EndsAlike` — a walk in any order ends as another one does, as it is run.
- `ChangeTree.computes_reachability_in_any_order` — all of this for built trees.
- `ChangeTree.entities_differ_of_renumbered` — references tell the order within an identifier.
-/

namespace IndexSync

variable {schema : Schema}

namespace Walk

variable {w w' : Walk schema} {nodes nodes' : List NodeId} {object : ObjectId} {n : Nat}
  {s : State} {ending : Ending}

/-- The object stands at a `reindex` node that a walk can reach. -/
def Marks (w : Walk schema) (nodes : List NodeId) (object x : ObjectId) : Prop :=
  ∃ id f, w.Reachable nodes object (id, f) ∧ w.arena.get? id = some .reindex ∧ f.toValue = .ref x

/-- What is found at the places reached are the references of the objects marked. -/
theorem exists_finds_iff {r : EntityRef} :
    (∃ p, w.Reachable nodes object p ∧ w.Finds p r) ↔
      ∃ x, w.Marks nodes object x ∧ w.store.reference x = .ok r := by
  constructor
  · rintro ⟨⟨id, f⟩, hp, hfind⟩
    have hnode := reindex_of_finds hfind
    obtain ⟨x, hx, hr⟩ := (finds_reindex hnode).mp hfind
    exact ⟨x, ⟨id, f, hp, hnode, hx⟩, hr⟩
  · rintro ⟨x, ⟨id, f, hp, hnode, hx⟩, hr⟩
    exact ⟨(id, f), hp, (finds_reindex hnode).mpr ⟨x, hx, hr⟩⟩

/-- In any order, a walk comes to its end exactly if it can reach nothing faulty. -/
theorem eq_finished_iff (h : w.Roams n (start nodes object) s) (hstops : w.Stops s ending) :
    ending = .finished ↔ ∀ p, w.Reachable nodes object p → ¬ w.Faulty p := by
  constructor
  · rintro rfl p hp hfaulty
    obtain ⟨hstack⟩ := hstops
    obtain ⟨followed, hfollow, -⟩ := follow_of_roams h hstack hp
    exact hfaulty.ne_ok followed hfollow
  · intro hfaultless
    cases ending with
    | finished => rfl
    | failed e =>
        obtain ⟨p, hp, herror⟩ := exists_of_stops h hstops
        exact absurd (faulty_iff.mpr ⟨e, herror⟩) (hfaultless p hp)
    | exhausted => cases hstops

/-- In any order, a walk that has come to its end has found the objects marked. -/
theorem mem_entities_iff_marks (h : w.Roams n (start nodes object) s)
    (hstops : w.Stops s .finished) (r : EntityRef) :
    r ∈ s.findings.entities ↔ ∃ x, w.Marks nodes object x ∧ w.store.reference x = .ok r := by
  obtain ⟨hstack⟩ := hstops
  rw [mem_entities_iff_of_roams h hstack, exists_finds_iff]

/-! ## Another order of everything -/

theorem Reordered.marks (h : w.Reordered w') (hnodes : nodes ⊆ nodes') {x : ObjectId}
    (hx : w.Marks nodes object x) : w'.Marks nodes' object x := by
  obtain ⟨id, f, hp, hnode, hf⟩ := hx
  obtain ⟨⟨id', g⟩, hq, heq, hfooting⟩ := h.reachable hnodes hp
  obtain rfl : id' = id := heq
  exact ⟨id', g, hq, h.arena.get?_eq_some hnode rfl, hfooting.toValue_eq_ref hf⟩

/-- Whatever place it takes off its stack next, `w'` ends as `w` does when it is run. -/
structure EndsAlike (w w' : Walk schema) (nodes nodes' : List NodeId) (object : ObjectId) :
    Prop where
  /-- The order in which `w'` is run is one of all. -/
  run : ∃ n, w'.Roams n (start nodes' object) (w'.run nodes' object).2 ∧
    w'.Stops (w'.run nodes' object).2 (w'.run nodes' object).1
  /-- Every order comes to an end. -/
  bounded : ∀ n s, w'.Roams n (start nodes' object) s → n ≤ w'.budget nodes'.length
  /-- Success does not depend on the order. -/
  success : ∀ n s ending, w'.Roams n (start nodes' object) s → w'.Stops s ending →
    (ending = .finished ↔ (w.run nodes object).1 = .finished)
  /-- Nor do the objects to be found. -/
  objects : ∀ x, w'.Marks nodes' object x ↔ w.Marks nodes object x
  /-- A walk that comes to its end has found their references. -/
  references : ∀ n s, w'.Roams n (start nodes' object) s → w'.Stops s .finished →
    ∀ r, r ∈ s.findings.entities ↔ ∃ x, w.Marks nodes object x ∧ w'.store.reference x = .ok r
  /-- The result is the same unless the identifier of an object found is reordered. -/
  result : (∀ x, w.Marks nodes object x → w'.store.identity x = w.store.identity x) →
    ∀ n s, w'.Roams n (start nodes' object) s → w'.Stops s .finished →
      s.findings.entities = (w.run nodes object).2.findings.entities

section

variable (hshallow : ∀ id, w.arena.Shallow (2 * w.arena.size + 1) id)
include hshallow

theorem roams_run (nodes : List NodeId) (object : ObjectId) :
    ∃ n, w.Roams n (start nodes object) (w.run nodes object).2 ∧
      w.Stops (w.run nodes object).2 (w.run nodes object).1 :=
  roams_of_run rfl (run_ne_exhausted hshallow nodes object)

theorem Reordered.shallow (h : w.Reordered w') (id : NodeId) :
    w'.arena.Shallow (2 * w'.arena.size + 1) id := by
  rw [h.arena.size_eq]
  exact h.arena.shallow (hshallow id)

theorem Reordered.endsAlike (h : w.Reordered w') (hnodes : nodes.Perm nodes') :
    w.EndsAlike w' nodes nodes' object := by
  have hshallow' := h.shallow hshallow
  obtain ⟨m, hrun, hend⟩ := roams_run hshallow nodes object
  have hmarks : ∀ x, w'.Marks nodes' object x ↔ w.Marks nodes object x :=
    fun x => ⟨h.symm.marks hnodes.symm.subset, h.marks hnodes.subset⟩
  have hsuccess : ∀ n s ending, w'.Roams n (start nodes' object) s → w'.Stops s ending →
      (ending = .finished ↔ (w.run nodes object).1 = .finished) := by
    intro n s ending hroams hstops
    rw [eq_finished_iff hroams hstops, eq_finished_iff hrun hend]
    exact ⟨h.symm.faultless hnodes.subset, h.faultless hnodes.symm.subset⟩
  have hreferences : ∀ n s, w'.Roams n (start nodes' object) s → w'.Stops s .finished →
      ∀ r, r ∈ s.findings.entities ↔
        ∃ x, w.Marks nodes object x ∧ w'.store.reference x = .ok r := by
    intro n s hroams hstops r
    simp only [mem_entities_iff_marks hroams hstops, hmarks]
  refine ⟨roams_run hshallow' nodes' object, fun n s => le_budget_of_roams hshallow', hsuccess,
    hmarks, hreferences, ?_⟩
  intro hidentity n s hroams hstops
  have hfinished : (w.run nodes object).1 = .finished := (hsuccess _ _ _ hroams hstops).mp rfl
  rw [hfinished] at hend
  refine Std.ExtTreeSet.ext_mem fun r => ?_
  rw [hreferences n s hroams hstops, mem_entities_iff_marks hrun hend]
  constructor
  · rintro ⟨x, hx, hr⟩
    exact ⟨x, hx, (h.store.reference_eq (hidentity x hx)).symm.trans hr⟩
  · rintro ⟨x, hx, hr⟩
    exact ⟨x, hx, (h.store.reference_eq (hidentity x hx)).trans hr⟩

end

end Walk

/-! ## Clubs -/

namespace Sample

/-- A list turned round. -/
theorem reordered_pair (u v : Value) : (Value.list [u, v]).Reordered (.list [v, u]) :=
  .list (.cons (.refl u) (.cons (.refl v) .nil)) (.swap v u [])

theorem reordered_reshuffled : enrolled.Reordered reshuffled := by
  have hset : enrolled.set 1 "clubs" (.list [.ref 3, .ref 2]) = .ok reshuffling :=
    Except.eq_ok_value _
  have hold : reshuffling.1 = .list [.ref 2, .ref 3] := by decide +kernel
  have hv : reshuffling.1.Reordered (.list [.ref 3, .ref 2]) := by
    rw [hold]
    exact reordered_pair _ _
  exact .of_set hset hv

theorem reordered_renumbered : enrolled.Reordered renumbered := by
  have hset : enrolled.set 2 "code" (.list [.integer 2, .integer 1]) = .ok renumbering :=
    Except.eq_ok_value _
  have hold : renumbering.1 = .list [.integer 1, .integer 2] := by decide +kernel
  have hv : renumbering.1.Reordered (.list [.integer 2, .integer 1]) := by
    rw [hold]
    exact reordered_pair _ _
  exact .of_set hset hv

end Sample

namespace ChangeTree

/-- Over every store, a walk through a built tree from any nodes comes to its end exactly if
it can reach nothing faulty, and finds the references of the objects at the `reindex` nodes
that it can reach.  With the children of unions, the elements in values and the start nodes
in any other order, and taking any place off the stack next, it ends alike. -/
theorem computes_reachability_in_any_order {defs : List TypeDef} {ds : Declarations}
    {mapping : Mapping schema} {filtering : Bool} {type : TypeName} {tree : ChangeTree}
    (hschema : Schema.ofDefinitions defs = .ok schema)
    (hcompile : Mapping.compile schema ds = .ok mapping)
    (hbuild : ChangeTree.build mapping filtering type = .ok tree)
    (store : ObjectStore schema) (dirty : Option OrdinalSet) (nodes : List NodeId)
    (o : ObjectId) :
    let w : Walk schema := { arena := tree.arena, store, dirty }
    ((w.run nodes o).1 = .finished ↔ ∀ p, w.Reachable nodes o p → ¬ w.Faulty p) ∧
      ((w.run nodes o).1 = .finished → ∀ r, r ∈ (w.run nodes o).2.findings.entities ↔
        ∃ x, w.Marks nodes o x ∧ store.reference x = .ok r) ∧
      ∀ (w' : Walk schema) (nodes' : List NodeId), w.Reordered w' → nodes.Perm nodes' →
        w.EndsAlike w' nodes nodes' o := by
  intro w
  have hm := Schema.coherent_of_accepted hschema
  have hclosed := Mapping.closed_of_compile hm hcompile
  obtain ⟨tree', l, hbuild', hbuilt⟩ := ChangeTree.build_spec hclosed.bounded filtering type
  cases hbuild.symm.trans hbuild'
  have hshallow : ∀ id, w.arena.Shallow (2 * w.arena.size + 1) id := hbuilt.shallow
  obtain ⟨n, hrun, hend⟩ := Walk.roams_run hshallow nodes o
  refine ⟨Walk.eq_finished_iff hrun hend, fun hfinished => ?_, fun w' nodes' h hnodes => ?_⟩
  · rw [hfinished] at hend
    exact Walk.mem_entities_iff_marks hrun hend
  · exact h.endsAlike hshallow hnodes

/-- The clubs of a person in another order: the same clubs are found. -/
theorem computes_reachability_in_any_order_clubs :
    let w := Sample.enrolledWalk Sample.enrolled
    let w' := Sample.enrolledWalk Sample.reshuffled
    let nodes := Sample.clubsTree.root.toList
    (∀ p, w.Reachable nodes 1 p → ¬ w.Faulty p) ∧
      (∀ r, r ∈ (w.run nodes 1).2.findings.entities ↔
        ∃ x, w.Marks nodes 1 x ∧ Sample.enrolled.reference x = .ok r) ∧
      w.EndsAlike w' nodes nodes 1 := by
  have hfinished : ((Sample.enrolledWalk Sample.enrolled).run
      Sample.clubsTree.root.toList 1).1 = .finished := by decide +kernel
  obtain ⟨hiff, hfound, hany⟩ := computes_reachability_in_any_order
    (Except.eq_ok_value (x := Schema.ofDefinitions Sample.clubs.types) _)
    (Except.eq_ok_value _) (Except.eq_ok_value _) Sample.enrolled none
    Sample.clubsTree.root.toList 1
  exact ⟨hiff.mp hfinished, hfound hfinished,
    hany _ _ ⟨.refl _, Sample.reordered_reshuffled, rfl⟩ (.refl _)⟩

/-- The code of a club in another order: the club is told apart from what it was. -/
theorem entities_differ_of_renumbered :
    Schema.ofDefinitions Sample.clubs.types = .ok Sample.clubsSchema ∧
      Mapping.compile Sample.clubsSchema Sample.clubs.mapping = .ok Sample.clubsMapping ∧
      ChangeTree.build Sample.clubsMapping true "Person" = .ok Sample.clubsTree ∧
      (Sample.enrolledWalk Sample.enrolled).Reordered (Sample.enrolledWalk Sample.renumbered) ∧
      ((Sample.enrolledWalk Sample.enrolled).run Sample.clubsTree.root.toList 1).1 = .finished ∧
      ((Sample.enrolledWalk Sample.renumbered).run Sample.clubsTree.root.toList 1).1 = .finished ∧
      ((Sample.enrolledWalk Sample.enrolled).run
        Sample.clubsTree.root.toList 1).2.findings.entities.toList =
        [{ type := "Club", identity := .id (.list [.integer 1, .integer 2]) },
          { type := "Club", identity := .id (.list [.integer 3]) }] ∧
      ((Sample.enrolledWalk Sample.renumbered).run
        Sample.clubsTree.root.toList 1).2.findings.entities.toList =
        [{ type := "Club", identity := .id (.list [.integer 2, .integer 1]) },
          { type := "Club", identity := .id (.list [.integer 3]) }] :=
  ⟨Except.eq_ok_value _, Except.eq_ok_value _, Except.eq_ok_value _,
    ⟨.refl _, Sample.reordered_renumbered, rfl⟩, by decide +kernel, by decide +kernel,
    by decide +kernel, by decide +kernel⟩

end ChangeTree

end IndexSync
