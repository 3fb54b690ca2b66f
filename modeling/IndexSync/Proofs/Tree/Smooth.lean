import IndexSync.Proofs.Tree.Update
import IndexSync.Proofs.Walk.Termination
import IndexSync.Proofs.Tree.Depth

/-!
# Walks that come to their end

A walk comes to its end if, and only if, nothing can go wrong on its way.

- `Mapping.SmoothPart`, `Mapping.Smooth` — nothing goes wrong in the document part of an
  object, or anywhere after a change of it.
- `Walk.exists_finished` — a walk that can follow every place it reaches comes to its
  end.
- `ChangeTree.exists_finished_iff` — when the walk from the root of a tree does.
-/

namespace IndexSync

variable {schema : Schema} {mapping : Mapping schema}

/-- Nothing goes wrong in the document part of `x`: at no move along an edge from it, nor
at its own reference. -/
structure Mapping.SmoothPart (mapping : Mapping schema) (s : ObjectStore schema) (x : ObjectId) :
    Prop where
  safe : ∀ move v, mapping.Attempts s (mapping.edgeMoves s x) (mapping.edgeMoves s x) (.ref x)
    move v → move.Safe s v
  reference : mapping.HasDocument s x → ∃ r, s.reference x = .ok r

/-- Nothing goes wrong after a change of `o` at the paths `dirty`, or at any path: at no
move along a trigger, nor in the part of a stale object. -/
structure Mapping.Smooth (mapping : Mapping schema) (s : ObjectStore schema) (o : ObjectId)
    (dirty : Option DirtySet) : Prop where
  safe : ∀ move v, mapping.Attempts s (mapping.triggerMoves s o dirty)
    (mapping.triggerMoves s o none) (.ref o) move v → move.Safe s v
  part : ∀ x, Stale mapping s o dirty x → mapping.SmoothPart s x

/-- Where a change is smooth, so is one that hits at most the same triggers. -/
theorem Mapping.Smooth.of_hits {s : ObjectStore schema} {o : ObjectId}
    {dirty dirty' : Option DirtySet} (h : mapping.Smooth s o dirty')
    (hsub : ∀ t ∈ mapping.triggers, s.IsA o t.changed → (∀ d ∈ dirty, d.hits t.dirty = true) →
      ∀ d ∈ dirty', d.hits t.dirty = true) : mapping.Smooth s o dirty where
  safe move v hattempt := by
    refine h.safe move v (hattempt.mono rfl ?_ fun _ => id)
    rintro _ ⟨t, ht, ho, hhit, rfl⟩
    exact ⟨t, ht, ho, hsub _ ht ho hhit, rfl⟩
  part x hx := h.part x (hx.mono hsub)

/-- A change that hits the dirty path of no trigger is smooth, and makes nothing stale. -/
theorem Mapping.smooth_of_unhit {s : ObjectStore schema} {o : ObjectId} {dirty : Option DirtySet}
    (h : ∀ t ∈ mapping.triggers, s.IsA o t.changed → ¬ ∀ d ∈ dirty, d.hits t.dirty = true) :
    mapping.Smooth s o dirty ∧ ∀ x, ¬ Stale mapping s o dirty x := by
  have hstale : ∀ x, ¬ Stale mapping s o dirty x := by
    intro x hx
    obtain ⟨t, ht, ho, hhit, -⟩ := hx.exists_trigger
    exact h t ht ho hhit
  refine ⟨⟨?_, fun x hx => absurd hx (hstale x)⟩, hstale⟩
  rintro move v ⟨_, ⟨_, t, ht, ho, hhit, -⟩, -⟩
  exact absurd hhit (h t ht ho)

namespace Walk

variable {w : Walk schema} {q : Place}

theorem Transits.exists_followed (h : w.Transits q.1) : ∃ followed, w.follow q = .ok followed := by
  rcases h with ⟨children, h⟩ | ⟨relevance, nested, h⟩
  · exact ⟨_, by simp only [follow, h]; rfl⟩
  · exact ⟨_, by simp only [follow, h]; rfl⟩

theorem AtPart.exists_followed {x : ObjectId} (h : w.AtPart mapping x q)
    (hsmooth : mapping.SmoothPart w.store x) : ∃ followed, w.follow q = .ok followed := by
  rcases h with htransit | ⟨move, hattempt, hmake⟩ | ⟨hdoc, hf, hmark⟩
  · exact htransit.exists_followed
  · exact follow_of_safe hmake (hsmooth.safe move _ hattempt)
  · obtain ⟨id, f⟩ := q
    obtain rfl : f = .object x := hf
    obtain ⟨r, hr⟩ := hsmooth.reference hdoc
    refine ⟨{ next := [], found := some r }, ?_⟩
    simp only [follow, hmark, onObject_eq_ok, Except.bind_eq_ok, reading_eq_ok]
    exact .inr ⟨x, rfl, r, hr, rfl⟩

/-- A walk comes to its end if every place that it reaches can be followed. -/
theorem exists_finished (hshallow : ∀ id, w.arena.Shallow (2 * w.arena.size + 1) id)
    {nodes : List NodeId} {object : ObjectId}
    (hfollow : ∀ q, w.Reachable nodes object q → ∃ followed, w.follow q = .ok followed) :
    ∃ s, w.run nodes object = (.finished, s) := by
  cases hrun : w.run nodes object with
  | mk ending s =>
      cases ending with
      | finished => exact ⟨s, rfl⟩
      | failed e =>
          obtain ⟨q, hq, herror⟩ := exists_of_failed hrun
          obtain ⟨followed, hfollowed⟩ := hfollow q hq
          exact absurd (herror.symm.trans hfollowed) nofun
      | exhausted =>
          have hends := run_ne_exhausted hshallow nodes object
          rw [hrun] at hends
          exact absurd rfl hends

/-- A move that the walk comes to make, and to make at a value that moves have led to, was
safe if the walk came to its end. -/
theorem safe_of_finished {nodes : List NodeId} {object : ObjectId} {s : State}
    (hrun : w.run nodes object = (.finished, s)) {u : NodeId} (hu : u ∈ nodes) {move : Move}
    {v : Value} (hcomes : w.ComesTo (u, .object object) fun q =>
      q.2.toValue = v ∧ w.MakesMove q.1 move) (hnull : v ≠ .null) : move.Safe w.store v := by
  obtain ⟨n, ⟨id, f⟩, hreach, rfl, hmake⟩ := hcomes
  obtain ⟨followed, hfollow, -⟩ := follow_of_finished hrun ⟨u, hu, n, hreach⟩
  exact safe_of_follow hmake hnull hfollow

theorem ne_null_of_attempts {s : ObjectStore schema} {hit all : List Move → Prop} {o : ObjectId}
    {move : Move} {v : Value} (h : mapping.Attempts s hit all (.ref o) move v) : v ≠ .null := by
  obtain ⟨before, -, -, hlead⟩ := h
  exact ne_null_of_movesLead hlead

/-- If a walk that comes to the part of an object has come to its end, nothing goes wrong
in the part. -/
theorem smoothPart_of_finished {l : Layout} (hw : w.arena = l.arena)
    (hsound : l.Sound mapping []) (hm : schema.Coherent) (hclosed : mapping.Closed)
    {nodes : List NodeId} {object y : ObjectId} {s : State} {d : TypeName}
    (hrun : w.run nodes object = (.finished, s)) (hd : w.store.runtimeType y = .ok d)
    (hcomes : ∀ P, mapping.hasPart d = true ∧ l.PartComesTo w d y P →
      ∃ u ∈ nodes, w.ComesTo (u, .object object) P) : mapping.SmoothPart w.store y where
  safe move v hattempt := by
    obtain ⟨u, hu, hmove⟩ :=
      hcomes _ (Layout.partComesTo_move hw hsound hm hclosed hd hattempt)
    exact safe_of_finished hrun hu hmove (ne_null_of_attempts hattempt)
  reference hdoc := by
    obtain ⟨u, hu, hmark⟩ := hcomes _ (Layout.partComesTo_mark hw hsound hclosed hd hdoc)
    obtain ⟨r, -, hr⟩ := exists_found_of_comesTo hrun hu hmark
    exact ⟨r, hr⟩

end Walk

namespace ChangeTree

variable {w : Walk schema} {tree : ChangeTree} {l : Layout} {filtering : Bool} {type : TypeName}
  {dirty : Option DirtySet} {o : ObjectId} (hbuilt : Built mapping filtering type tree l)
  (harena : w.arena = tree.arena) (hdirty : w.dirty = dirty.map tree.table.hitBy)
  (hm : schema.Coherent)
include hbuilt harena hdirty hm

/-- After a smooth change, every place reached from the root can be followed. -/
theorem exists_followed_of_root (ho : w.store.runtimeType o = .ok type)
    (hsmooth : mapping.Smooth w.store o (if filtering then dirty else none)) {q : Place}
    (hq : w.Reachable tree.root.toList o q) : ∃ followed, w.follow q = .ok followed := by
  obtain ⟨u, hu, n, hreach⟩ := hq
  rcases trace hbuilt harena hdirty hm ho (Option.mem_toList.mp hu) hreach with
    ⟨rfl, hmake⟩ | htransit | ⟨move, hattempt, hmake⟩ | ⟨x, hx, hpart⟩
  · have hdeclared : schema.declares type = true :=
      (Schema.isConcrete_iff.mp (w.store.isConcrete_of_runtimeType ho)).1
    exact Walk.follow_of_safe hmake ⟨o, rfl, type, ho, hm.fits_refl hdeclared⟩
  · exact htransit.exists_followed
  · exact Walk.follow_of_safe hmake (hsmooth.safe move _ hattempt)
  · exact hpart.exists_followed (hsmooth.part x hx)

/-- If a walk that starts at the root has come to its end, the change was smooth. -/
theorem smooth_of_finished (hclosed : mapping.Closed) (ho : w.store.runtimeType o = .ok type)
    {nodes : List NodeId} (hroot : tree.root.toList ⊆ nodes) {s : Walk.State}
    (hrun : w.run nodes o = (.finished, s)) :
    mapping.Smooth w.store o (if filtering then dirty else none) where
  safe move v hattempt := by
    obtain ⟨u, hu, hmove⟩ := comesTo_move hbuilt harena hdirty hm ho hattempt
    exact Walk.safe_of_finished hrun (hroot (by simp [hu])) hmove
      (Walk.ne_null_of_attempts hattempt)
  part y hy := by
    obtain ⟨d, hd⟩ := hy.isLive
    refine Walk.smoothPart_of_finished (harena.trans hbuilt.arena) hbuilt.sound hm hclosed hrun hd
      fun P hpart => ?_
    obtain ⟨u, hu, hcomes⟩ := comesTo_stale hbuilt harena hdirty hm hclosed ho hy hd hpart
    exact ⟨u, hroot (by simp [hu]), hcomes⟩

omit hdirty hm in
theorem shallow_of_built (id : NodeId) : w.arena.Shallow (2 * w.arena.size + 1) id := by
  rw [harena]
  exact hbuilt.shallow id

theorem exists_finished_of_smooth (ho : w.store.runtimeType o = .ok type)
    (hsmooth : mapping.Smooth w.store o (if filtering then dirty else none)) :
    ∃ s, w.run tree.root.toList o = (.finished, s) := by
  refine Walk.exists_finished (shallow_of_built hbuilt harena) fun q hq => ?_
  exact exists_followed_of_root hbuilt harena hdirty hm ho hsmooth hq

/-- The walk from the root comes to its end if, and only if, the change is smooth. -/
theorem exists_finished_iff (hclosed : mapping.Closed) (ho : w.store.runtimeType o = .ok type) :
    (∃ s, w.run tree.root.toList o = (.finished, s)) ↔
      mapping.Smooth w.store o (if filtering then dirty else none) := by
  refine ⟨?_, exists_finished_of_smooth hbuilt harena hdirty hm ho⟩
  rintro ⟨s, hrun⟩
  exact smooth_of_finished hbuilt harena hdirty hm hclosed ho (List.Subset.refl _) hrun

end ChangeTree

end IndexSync
