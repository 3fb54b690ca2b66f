import IndexSync.Proofs.Tree.Parts

/-!
# What a change makes stale

The walk of a tree finds the documents that a change makes stale.

- `Stale` — the objects whose document part a change invalidates: those that the
  chains of its triggers lead to, and those that embed such an object.
- `ChangeTree.comesTo_stale`, `ChangeTree.comesTo_move` — the walk comes to the part of
  every stale object, and makes the moves of the triggers.
- `ChangeTree.trace` — wherever the walk is, it is on the way along a trigger, or in
  the part of a stale object.
- `ChangeTree.exists_found_of_stale`, `exists_stale_of_found`, `mem_entities_iff` — a
  finished walk has found the stale documents.
-/

namespace IndexSync

open Relation (ReflTransGen)

variable {schema : Schema} {mapping : Mapping schema}

/-- The objects whose document part a change of `o` at the paths `dirty`, or at any
path, invalidates. -/
inductive Stale (mapping : Mapping schema) (s : ObjectStore schema) (o : ObjectId)
    (dirty : Option DirtySet) : ObjectId → Prop
  | triggered {t : Trigger} {x : ObjectId} : t ∈ mapping.triggers → s.IsA o t.changed →
      (∀ d ∈ dirty, d.hits t.dirty = true) → chainLeads s t.chain o x →
      Stale mapping s o dirty x
  | embedding {e : Embedding} {x y : ObjectId} : Stale mapping s o dirty x →
      e ∈ mapping.embeddings → s.IsA x e.target → chainLeads s e.chain x y →
      Stale mapping s o dirty y

theorem Stale.of_embeds {s : ObjectStore schema} {o x y : ObjectId} {dirty : Option DirtySet}
    (h : Stale mapping s o dirty x) (hxy : ReflTransGen (mapping.Embeds s) x y) :
    Stale mapping s o dirty y := by
  induction hxy with
  | refl => exact h
  | tail _ hyz ih =>
      obtain ⟨e, he, hy, hlead⟩ := hyz
      exact .embedding ih he hy hlead

/-- A stale object embeds one that a trigger leads to. -/
theorem Stale.exists_trigger {s : ObjectStore schema} {o y : ObjectId} {dirty : Option DirtySet}
    (h : Stale mapping s o dirty y) :
    ∃ t ∈ mapping.triggers, s.IsA o t.changed ∧ (∀ d ∈ dirty, d.hits t.dirty = true) ∧
      ∃ x, chainLeads s t.chain o x ∧ ReflTransGen (mapping.Embeds s) x y := by
  induction h with
  | @triggered t x ht ho hdirty hlead => exact ⟨t, ht, ho, hdirty, x, hlead, .refl⟩
  | @embedding e x y _ he hx hlead ih =>
      obtain ⟨t, ht, ho, hdirty, z, hz, hzx⟩ := ih
      exact ⟨t, ht, ho, hdirty, z, hz, hzx.tail ⟨e, he, hx, hlead⟩⟩

/-- What a change makes stale, a change does that hits at least as many triggers. -/
theorem Stale.mono {s : ObjectStore schema} {o y : ObjectId} {dirty dirty' : Option DirtySet}
    (h : Stale mapping s o dirty y)
    (hsub : ∀ t ∈ mapping.triggers, s.IsA o t.changed → (∀ d ∈ dirty, d.hits t.dirty = true) →
      ∀ d ∈ dirty', d.hits t.dirty = true) : Stale mapping s o dirty' y := by
  induction h with
  | triggered ht ho hhit hlead => exact .triggered ht ho (hsub _ ht ho hhit) hlead
  | embedding _ he hx hlead ih => exact .embedding ih he hx hlead

theorem Stale.isLive {s : ObjectStore schema} {o y : ObjectId} {dirty : Option DirtySet}
    (h : Stale mapping s o dirty y) : ∃ c, s.runtimeType y = .ok c := by
  cases h with
  | triggered _ ho _ hlead =>
      obtain ⟨c, hc, -⟩ := isA_chainEnd ho hlead
      exact ⟨c, hc⟩
  | embedding _ _ hx hlead =>
      obtain ⟨c, hc, -⟩ := isA_chainEnd hx hlead
      exact ⟨c, hc⟩

/-- The moves of the triggers for a change of `o` at the paths `dirty`, or at any path. -/
def Mapping.triggerMoves (mapping : Mapping schema) (s : ObjectStore schema) (o : ObjectId)
    (dirty : Option DirtySet) : List Move → Prop :=
  fun ms => ∃ t ∈ mapping.triggers, s.IsA o t.changed ∧ (∀ d ∈ dirty, d.hits t.dirty = true) ∧
    ms = t.moves

namespace ChangeTree

variable {w : Walk schema} {tree : ChangeTree} {l : Layout} {filtering : Bool} {type : TypeName}
  {dirty : Option DirtySet} {o : ObjectId}

/-- The sequences that the tree of a type is laid out for. -/
def sequenceSet (mapping : Mapping schema) (type : TypeName) : SequenceSet :=
  fun ms bits => (ms, bits) ∈ (sequences mapping type).2

/-- The dirty paths of all triggers for the type are relevant. -/
theorem Built.dirty_mem_relevantPaths (h : Built mapping filtering type tree l) {t : Trigger}
    (ht : t ∈ mapping.triggers) (hfits : schema.fits type t.changed = true) :
    t.dirty ∈ tree.relevantPaths := by
  obtain ⟨n, -, hpath⟩ := exists_sequence ht hfits
  rw [← h.table] at hpath
  exact List.mem_of_getElem? hpath

/-- A filter for a single path lets a walk pass if the path is hit. -/
theorem admits_single_iff (hdirty : w.dirty = dirty.map tree.table.hitBy) {n : Nat} {path : String}
    (hpath : tree.table.paths[n]? = some path) :
    w.Admits (.single n) ↔ ∀ d ∈ dirty, d.hits path = true := by
  unfold Walk.Admits Walk.blocks
  rw [hdirty]
  cases dirty with
  | none => simp
  | some d =>
      simp only [Option.map_some, Bool.not_eq_false', OrdinalSet.intersects_iff,
        PathTable.contains_hitBy, Option.mem_some_iff, forall_eq', OrdinalSet.contains_single,
        decide_eq_true_eq]
      constructor
      · rintro ⟨_, rfl, _, hpath', hhit⟩
        cases hpath.symm.trans hpath'
        exact hhit
      · exact fun hhit => ⟨n, rfl, path, hpath, hhit⟩

/-- The tree of the type is laid out for all triggers of the object. -/
theorem moves_sequenceSet (ho : w.store.runtimeType o = .ok type) :
    (sequenceSet mapping type).moves =
    mapping.triggerMoves w.store o none := by
  funext ms
  refine propext ⟨?_, ?_⟩
  · rintro ⟨bits, hmem⟩
    obtain ⟨t, ht, hfits, rfl, -⟩ := mem_sequences hmem
    exact ⟨t, ht, ⟨type, ho, hfits⟩, nofun, rfl⟩
  · rintro ⟨t, ht, ⟨type', htype', hfits⟩, -, rfl⟩
    cases htype'.symm.trans ho
    obtain ⟨n, hmem, -⟩ := exists_sequence ht hfits
    exact ⟨_, hmem⟩

/-- The filters let pass the triggers whose dirty path is hit. -/
theorem hits_sequenceSet (hbuilt : Built mapping filtering type tree l)
    (hdirty : w.dirty = dirty.map tree.table.hitBy) (ho : w.store.runtimeType o = .ok type) :
    w.hits (if filtering then .always else .never) (sequenceSet mapping type) =
      mapping.triggerMoves w.store o (if filtering then dirty else none) := by
  have hclear : ∀ {n : Nat} {path : String}, (sequences mapping type).1.paths[n]? = some path →
      (w.Clears (if filtering then .always else .never) (.single n) ↔
        ∀ d ∈ (if filtering then dirty else none), d.hits path = true) := by
    intro n path hpath
    rw [← hbuilt.table] at hpath
    cases filtering with
    | false => simp [Walk.Clears]
    | true => simp [Walk.Clears, admits_single_iff hdirty hpath]
  funext ms
  refine propext ⟨?_, ?_⟩
  · rintro ⟨bits, hmem, hpass⟩
    obtain ⟨t, ht, hfits, rfl, n, rfl, hpath⟩ := mem_sequences hmem
    exact ⟨t, ht, ⟨type, ho, hfits⟩, (hclear hpath).mp hpass, rfl⟩
  · rintro ⟨t, ht, ⟨type', htype', hfits⟩, hhit, rfl⟩
    cases htype'.symm.trans ho
    obtain ⟨n, hmem, hpath⟩ := exists_sequence ht hfits
    exact ⟨_, hmem, (hclear hpath).mpr hhit⟩

variable (hbuilt : Built mapping filtering type tree l) (harena : w.arena = tree.arena)
  (hdirty : w.dirty = dirty.map tree.table.hitBy) (hm : schema.Coherent)
include hbuilt harena hdirty hm

/-- The walk comes to wherever it does from the part of a stale object. -/
theorem comesTo_stale (hclosed : mapping.Closed) (ho : w.store.runtimeType o = .ok type)
    {P : Place → Prop} {y : ObjectId} {d : TypeName}
    (hy : Stale mapping w.store o (if filtering then dirty else none) y)
    (hd : w.store.runtimeType y = .ok d)
    (hpart : mapping.hasPart d = true ∧ l.PartComesTo w d y P) :
    ∃ u, tree.root = some u ∧ w.ComesTo (u, .object o) P := by
  obtain ⟨t, ht, hchanged, hhit, x, hlead, hxy⟩ := hy.exists_trigger
  obtain ⟨c, hx, -⟩ := isA_chainEnd hchanged hlead
  have hw := harena.trans hbuilt.arena
  obtain ⟨-, hpart'⟩ := Layout.partComesTo_of_embeds hw hbuilt.sound hm hclosed hxy hd hpart hx
  have hmoves : movesLead w.store t.moves (.ref o) (.ref x) :=
    movesLead_chainMoves_iff.mpr ⟨x, rfl, hlead⟩
  have hhits :
      w.hits (if filtering then .always else .never) (sequenceSet mapping type) t.moves := by
    rw [hits_sequenceSet hbuilt hdirty ho]
    exact ⟨t, ht, hchanged, hhit, rfl⟩
  refine hbuilt.root.comesTo_part hw hm hx hpart' (Trie.merges_ofSequences _) hhits ho (by simp)
    hmoves ?_
  by_cases hempty : t.chain = []
  · left
    rw [Trigger.moves, hempty]
    rfl
  · exact .inr (exists_land_of_chain hempty)

/-- The walk makes the moves of the triggers that it is to make. -/
theorem comesTo_move (ho : w.store.runtimeType o = .ok type) {move : Move} {v : Value}
    (h : mapping.Attempts w.store
      (mapping.triggerMoves w.store o (if filtering then dirty else none))
      (mapping.triggerMoves w.store o none) (.ref o) move v) :
    ∃ u, tree.root = some u ∧
      w.ComesTo (u, .object o) fun q => q.2.toValue = v ∧ w.MakesMove q.1 move := by
  have hw := harena.trans hbuilt.arena
  refine hbuilt.root.comesTo_move hw hm hbuilt.sound (Trie.merges_ofSequences _) ho (by simp) ?_
  show mapping.Attempts w.store (w.hits _ (sequenceSet mapping type))
    (sequenceSet mapping type).moves (.ref o) move v
  rw [hits_sequenceSet hbuilt hdirty ho, moves_sequenceSet ho]
  exact h

/-- Wherever the walk is, it is at the root, on the way along a trigger, or in the
part of a stale object. -/
theorem trace (ho : w.store.runtimeType o = .ok type) {u : NodeId} (hroot : tree.root = some u)
    {n : Nat} {q : Place} (hreach : w.Reaches n (u, .object o) q) :
    (q = (u, .object o) ∧ w.MakesMove u (.land type)) ∨ w.Transits q.1 ∨
      (∃ move, mapping.Attempts w.store
        (mapping.triggerMoves w.store o (if filtering then dirty else none))
        (mapping.triggerMoves w.store o none) (.ref o) move q.2.toValue ∧ w.MakesMove q.1 move) ∨
      ∃ x, Stale mapping w.store o (if filtering then dirty else none) x ∧
        w.AtPart mapping x q := by
  have hw := harena.trans hbuilt.arena
  have htree := hbuilt.root
  rw [hroot] at htree
  have hdeclared : schema.declares type = true :=
    (Schema.isConcrete_iff.mp (w.store.isConcrete_of_runtimeType ho)).1
  have hfits : ∀ c ∈ [type], schema.fits c type = true := by
    rintro c hc
    cases List.mem_singleton.mp hc
    exact hm.fits_refl hdeclared
  have hpass : w.Passed (if filtering then .always else .never) := by
    cases filtering <;> trivial
  have hmerge : (Trie.ofSequences (sequences mapping type).2).Merges (sequenceSet mapping type) :=
    Trie.merges_ofSequences _
  rcases htree.trace hw hm hbuilt.sound hmerge hfits hpass hreach with hat | hinside | hbeyond
  · exact .inl hat
  · rw [Walk.Inside, hits_sequenceSet hbuilt hdirty ho, moves_sequenceSet ho] at hinside
    exact .inr (hinside.imp_right .inl)
  · obtain ⟨ms, x, c, place, k, hhits, hlead, hx, hplace, -, hreach'⟩ := hbeyond
    rw [hits_sequenceSet hbuilt hdirty ho] at hhits
    obtain ⟨t, ht, hchanged, hhit, rfl⟩ := hhits
    obtain ⟨x', heq, hchain⟩ := movesLead_chainMoves_iff.mp hlead
    cases heq
    obtain ⟨y, hxy, hy⟩ := Layout.part_trace hw hbuilt.sound hm hx hplace hreach'
    exact .inr (.inr (.inr ⟨y, (Stale.triggered ht hchanged hhit hchain).of_embeds hxy, hy⟩))

/-! ## What a finished walk has found -/

/-- Every stale document has a reference, which a finished walk has found; without filters,
every document that a change at any path makes stale. -/
theorem exists_found_of_effective (hclosed : mapping.Closed)
    (ho : w.store.runtimeType o = .ok type) {s : Walk.State}
    (hrun : w.run tree.root.toList o = (.finished, s)) {y : ObjectId}
    (hy : Stale mapping w.store o (if filtering then dirty else none) y)
    (hdoc : mapping.HasDocument w.store y) :
    ∃ r ∈ s.findings.entities, w.store.reference y = .ok r := by
  obtain ⟨d, hd⟩ := hy.isLive
  have hw := harena.trans hbuilt.arena
  have hmark := Layout.partComesTo_mark hw hbuilt.sound hclosed hd hdoc
  obtain ⟨u, hroot, hcomes⟩ := comesTo_stale hbuilt harena hdirty hm hclosed ho hy hd hmark
  exact Walk.exists_found_of_comesTo hrun (by simp [hroot]) hcomes

/-- Every stale document has a reference, which a finished walk has found. -/
theorem exists_found_of_stale (hclosed : mapping.Closed)
    (ho : w.store.runtimeType o = .ok type) {s : Walk.State}
    (hrun : w.run tree.root.toList o = (.finished, s)) {y : ObjectId}
    (hy : Stale mapping w.store o dirty y) (hdoc : mapping.HasDocument w.store y) :
    ∃ r ∈ s.findings.entities, w.store.reference y = .ok r := by
  refine exists_found_of_effective hbuilt harena hdirty hm hclosed ho hrun (hy.mono ?_) hdoc
  intro t _ _ hhit
  cases filtering with
  | false => nofun
  | true => exact hhit

/-- What is found on a walk from the root are references of stale documents; without
filters, of those that a change at any path makes stale. -/
theorem exists_stale_of_finds (ho : w.store.runtimeType o = .ok type) {p : Place}
    (hp : w.Reachable tree.root.toList o p) {r : EntityRef} (hfind : w.Finds p r) :
    ∃ y, Stale mapping w.store o (if filtering then dirty else none) y ∧
      mapping.HasDocument w.store y ∧ w.store.reference y = .ok r := by
  obtain ⟨id, f⟩ := p
  obtain ⟨u, hu, n, hreach⟩ := hp
  have hid := Walk.reindex_of_finds hfind
  -- a mark is neither the root nor on the way along a trigger
  rcases trace hbuilt harena hdirty hm ho (Option.mem_toList.mp hu) hreach with
    ⟨heq, hmake⟩ | htransit | ⟨_, -, hmake⟩ | ⟨x, hx, hpart⟩
  · cases heq
    exact absurd hid hmake.ne_reindex
  · exact absurd hid htransit.ne_reindex
  · exact absurd hid hmake.ne_reindex
  · exact ⟨x, hx, hpart.found hid hfind⟩

theorem exists_stale_of_found (ho : w.store.runtimeType o = .ok type) {s : Walk.State}
    (hrun : w.run tree.root.toList o = (.finished, s)) {r : EntityRef}
    (hr : r ∈ s.findings.entities) :
    ∃ y, Stale mapping w.store o (if filtering then dirty else none) y ∧
      mapping.HasDocument w.store y ∧ w.store.reference y = .ok r := by
  obtain ⟨p, hp, hfind⟩ := (Walk.mem_entities_iff hrun r).mp hr
  exact exists_stale_of_finds hbuilt harena hdirty hm ho hp hfind

/-- A finished walk has found the stale documents, and each of them has a
reference. -/
theorem mem_entities_iff (hclosed : mapping.Closed) (ho : w.store.runtimeType o = .ok type)
    {s : Walk.State} (hrun : w.run tree.root.toList o = (.finished, s)) :
    (∀ r, r ∈ s.findings.entities ↔
      ∃ y, Stale mapping w.store o (if filtering then dirty else none) y ∧
        mapping.HasDocument w.store y ∧ w.store.reference y = .ok r) ∧
    ∀ y, Stale mapping w.store o (if filtering then dirty else none) y →
      mapping.HasDocument w.store y → ∃ r, w.store.reference y = .ok r := by
  refine ⟨fun r => ⟨exists_stale_of_found hbuilt harena hdirty hm ho hrun, ?_⟩,
    fun y hy hdoc => ?_⟩
  · rintro ⟨y, hy, hdoc, href⟩
    obtain ⟨r', hr', href'⟩ :=
      exists_found_of_effective hbuilt harena hdirty hm hclosed ho hrun hy hdoc
    cases href.symm.trans href'
    exact hr'
  · obtain ⟨r, -, hr⟩ := exists_found_of_effective hbuilt harena hdirty hm hclosed ho hrun hy hdoc
    exact ⟨r, hr⟩

end ChangeTree

end IndexSync
