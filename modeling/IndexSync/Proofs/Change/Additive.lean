import IndexSync.Proofs.Change.Filters
import IndexSync.Proofs.Dirty.Segments
import IndexSync.Proofs.Plan.Calls
import IndexSync.Proofs.Plan.Events

/-!
# Changes at several paths

A change at several paths calls for what changes at each of them call for.

- `stale_iff_or`, `Mapping.smooth_iff_and` — what is stale after a change at more paths, and
  when that change is smooth.
- `Plan.process_updated_eq_ok` — what a plan with a single update comes to.
- `Engine.afterChange_additive` — the answers to changes at joined paths, at some paths and
  at any path, and the works of plans with such updates.
-/

namespace IndexSync

variable {schema : Schema} {mapping : Mapping schema}

theorem DirtySet.hits_union {d₁ d₂ : DirtySet} {path : String} :
    (d₁ ∪ d₂).hits path = true ↔ d₁.hits path = true ∨ d₂.hits path = true := by
  simp only [hits_iff, Std.ExtTreeSet.mem_union_iff, or_and_right, exists_or]

/-- Dirty paths hit themselves. -/
theorem DirtySet.hits_of_mem {d : DirtySet} {path : String} (h : path ∈ d) :
    d.hits path = true :=
  DirtySet.hits_iff.mpr ⟨path, h, .inl List.prefix_rfl⟩

section

variable {s : ObjectStore schema} {o x : ObjectId} {dirty dirty₁ dirty₂ : Option DirtySet}
  (hor : ∀ path : String, (∀ d ∈ dirty, d.hits path = true) ↔
    (∀ d ∈ dirty₁, d.hits path = true) ∨ ∀ d ∈ dirty₂, d.hits path = true)
include hor

/-- What a change makes stale that hits what either of two changes hits. -/
theorem stale_iff_or :
    Stale mapping s o dirty x ↔ Stale mapping s o dirty₁ x ∨ Stale mapping s o dirty₂ x := by
  constructor
  · intro h
    obtain ⟨t, ht, ho, hhit, y, hlead, hyx⟩ := h.exists_trigger
    refine ((hor t.dirty).mp hhit).imp ?_ ?_
    · exact fun hhit => (Stale.triggered ht ho hhit hlead).of_embeds hyx
    · exact fun hhit => (Stale.triggered ht ho hhit hlead).of_embeds hyx
  · rintro (h | h)
    · exact h.mono fun t _ _ hhit => (hor t.dirty).mpr (.inl hhit)
    · exact h.mono fun t _ _ hhit => (hor t.dirty).mpr (.inr hhit)

/-- It is smooth if both of them are. -/
theorem Mapping.smooth_iff_and :
    mapping.Smooth s o dirty ↔ mapping.Smooth s o dirty₁ ∧ mapping.Smooth s o dirty₂ := by
  constructor
  · intro h
    exact ⟨h.of_hits fun t _ _ hhit => (hor t.dirty).mpr (.inl hhit),
      h.of_hits fun t _ _ hhit => (hor t.dirty).mpr (.inr hhit)⟩
  · rintro ⟨h₁, h₂⟩
    refine ⟨?_, fun x hx => ?_⟩
    · -- the trigger along which the move is made is hit by one of the two
      rintro move v ⟨before, ⟨rest, t, ht, ho, hhit, hmoves⟩, hviable, hlead⟩
      rcases (hor t.dirty).mp hhit with hhit | hhit
      · exact h₁.safe move v ⟨before, ⟨rest, t, ht, ho, hhit, hmoves⟩, hviable, hlead⟩
      · exact h₂.safe move v ⟨before, ⟨rest, t, ht, ho, hhit, hmoves⟩, hviable, hlead⟩
    · rcases (stale_iff_or hor).mp hx with hx | hx
      · exact h₁.part x hx
      · exact h₂.part x hx

end

namespace Plan

variable {settings : Settings} {e : Engine schema} {store : ObjectStore schema} {o : ObjectId}
  {dirty : Option DirtySet}

/-- A plan with a single update comes to updates of the documents that it finds. -/
theorem process_updated_eq_ok (h : e.Reliable mapping settings)
    {events : List (ObjectId × Event)}
    (hchanges : (recorded .atOnce events).changes = [(o, .updated dirty)]) {outcome : Outcome} :
    (((recorded .atOnce events).process store).run.run e).1 = .ok outcome ↔
      ∃ found, Engine.changeAnswer mapping settings store o dirty = .ok found ∧
        outcome = { works := Works.mergeAll ∅ (updates found), postponed := [] } := by
  obtain ⟨e', hanswer, -⟩ := answers_process (recorded .atOnce events) store e h
  rw [hanswer, timing_recorded, hchanges]
  simp only [List.foldlM_cons, List.foldlM_nil, bind_pure, extended, callsFor, otherCalls,
    Except.bind_eq_ok, Except.pure_eq_ok, Except.mapError_eq_ok]
  constructor
  · rintro ⟨_, ⟨_, -, found, hfound, rfl⟩, rfl⟩
    exact ⟨found, hfound, rfl⟩
  · rintro ⟨found, hfound, rfl⟩
    obtain ⟨type, -, -, ho, -⟩ := Engine.answerTo_eq_ok.mp hfound
    exact ⟨_, ⟨type, ho, found, hfound, rfl⟩, rfl⟩

/-- Updates of the documents in two sets, merged at once or one set after the other. -/
theorem mergeAll_updates_union (found₁ found₂ : EntitySet) :
    Works.mergeAll ∅ (updates (found₁ ∪ found₂)) =
      (Works.mergeAll ∅ (updates found₁)).mergeAll (Works.mergeAll ∅ (updates found₂)).inOrder := by
  rw [Works.mergeAll_inOrder, ← Works.mergeAll_append]
  refine Works.mergeAll_congr fun ⟨r, a⟩ => ?_
  simp only [List.mem_append, mem_updates, Std.ExtTreeSet.mem_union_iff, and_or_left]

/-! ## Updates of one object -/

theorem changes_update (timing : Timing) (o : ObjectId) (dirty : Option DirtySet) :
    (recorded timing [(o, .update dirty)]).changes = [(o, .updated dirty)] := by
  simp [recorded, record, update, note, empty, changes]

/-- Two updates of one object at known paths are one at all of these. -/
theorem changes_two_updates (timing : Timing) (o : ObjectId) (d₁ d₂ : DirtySet) :
    (recorded timing [(o, .update (some d₁)), (o, .update (some d₂))]).changes =
      [(o, .updated (some (d₁ ∪ d₂)))] := by
  simp [recorded, record, update, note, empty, changes, Fate.merge]

end Plan

namespace Engine

variable {defs : List TypeDef} {ds : Declarations} {settings : Settings} {e : Engine schema}
  {store : ObjectStore schema} {o : ObjectId}

section

variable (hm : schema.Coherent) (hclosed : mapping.Closed)
include hm hclosed

/-- A change at the paths of two sets is answered if each of the two is, and then with what
they find together. -/
theorem changeAnswer_union_eq_ok {d₁ d₂ : DirtySet} {found : EntitySet} :
    changeAnswer mapping settings store o (some (d₁ ∪ d₂)) = .ok found ↔
      ∃ found₁ found₂, changeAnswer mapping settings store o (some d₁) = .ok found₁ ∧
        changeAnswer mapping settings store o (some d₂) = .ok found₂ ∧ found = found₁ ∪ found₂ := by
  have hor : ∀ path : String,
      (∀ d ∈ (if settings.filtering then some (d₁ ∪ d₂) else none), d.hits path = true) ↔
        (∀ d ∈ (if settings.filtering then some d₁ else none), d.hits path = true) ∨
        ∀ d ∈ (if settings.filtering then some d₂ else none), d.hits path = true := by
    intro path
    cases settings.filtering <;> simp [DirtySet.hits_union]
  have hunion : ∀ {found₁ found₂},
      changeAnswer mapping settings store o (some d₁) = .ok found₁ →
      changeAnswer mapping settings store o (some d₂) = .ok found₂ →
      ∀ r, r ∈ found₁ ∪ found₂ ↔
        ∃ y, Stale mapping store o (if settings.filtering then some (d₁ ∪ d₂) else none) y ∧
          mapping.HasDocument store y ∧ store.reference y = .ok r := by
    intro found₁ found₂ h₁ h₂ r
    rw [Std.ExtTreeSet.mem_union_iff, (changeAnswer_spec hm hclosed h₁).2.2,
      (changeAnswer_spec hm hclosed h₂).2.2]
    simp only [stale_iff_or hor, or_and_right, exists_or]
  constructor
  · intro h
    obtain ⟨ho, hsmooth, hmem⟩ := changeAnswer_spec hm hclosed h
    obtain ⟨hsmooth₁, hsmooth₂⟩ := (Mapping.smooth_iff_and hor).mp hsmooth
    obtain ⟨found₁, h₁⟩ := exists_changeAnswer hm hclosed settings (some d₁) ho hsmooth₁
    obtain ⟨found₂, h₂⟩ := exists_changeAnswer hm hclosed settings (some d₂) ho hsmooth₂
    refine ⟨found₁, found₂, h₁, h₂, ?_⟩
    exact Std.ExtTreeSet.ext_mem fun r => (hmem r).trans (hunion h₁ h₂ r).symm
  · rintro ⟨found₁, found₂, h₁, h₂, rfl⟩
    obtain ⟨ho, hsmooth₁, -⟩ := changeAnswer_spec hm hclosed h₁
    obtain ⟨-, hsmooth₂, -⟩ := changeAnswer_spec hm hclosed h₂
    exact (changeAnswer_eq_ok_iff hm hclosed).mpr
      ⟨ho, (Mapping.smooth_iff_and hor).mpr ⟨hsmooth₁, hsmooth₂⟩, hunion h₁ h₂⟩

/-- Where a change at any path is answered, so is one at some paths, with part of that; with
all of it if every trigger is hit. -/
theorem exists_changeAnswer_of_any {all : EntitySet}
    (h : changeAnswer mapping settings store o none = .ok all) (d : DirtySet) :
    ∃ found, changeAnswer mapping settings store o (some d) = .ok found ∧
      (∀ r ∈ found, r ∈ all) ∧
      ((∀ t ∈ mapping.triggers, store.IsA o t.changed → d.hits t.dirty = true) → found = all) := by
  obtain ⟨ho, hsmooth, hall⟩ := changeAnswer_spec hm hclosed h
  rw [ite_self] at hsmooth hall
  obtain ⟨found, hfound⟩ := exists_changeAnswer hm hclosed settings (some d) ho
    (hsmooth.of_hits fun _ _ _ _ => nofun)
  have hmem := (changeAnswer_spec hm hclosed hfound).2.2
  have hsub : ∀ r ∈ found, r ∈ all := by
    intro r hr
    obtain ⟨y, hy, hdoc⟩ := (hmem r).mp hr
    exact (hall r).mpr ⟨y, hy.mono fun _ _ _ _ => nofun, hdoc⟩
  refine ⟨found, hfound, hsub, fun hhit => Std.ExtTreeSet.ext_mem fun r => ⟨hsub r, fun hr => ?_⟩⟩
  obtain ⟨y, hy, hdoc⟩ := (hall r).mp hr
  refine (hmem r).mpr ⟨y, hy.mono fun t ht hchanged _ => ?_, hdoc⟩
  cases settings.filtering with
  | false => nofun
  | true =>
      rintro _ ⟨⟩
      exact hhit t ht hchanged

end

/-- Changes at two sets of paths are answered together as they are one by one, a change at
any path takes in those at some paths, and updates of one object that are noted in one
plan come to the works of two plans. -/
theorem afterChange_additive (hschema : Schema.ofDefinitions defs = .ok schema)
    (hcompile : Mapping.compile schema ds = .ok mapping) (hreach : Reached schema ds settings e)
    (store : ObjectStore schema) (o : ObjectId) :
    (∀ (d₁ d₂ : DirtySet) found,
      ((afterChange store o (some (d₁ ∪ d₂))).run.run e).1 = .ok found ↔
        ∃ found₁ found₂, ((afterChange store o (some d₁)).run.run e).1 = .ok found₁ ∧
          ((afterChange store o (some d₂)).run.run e).1 = .ok found₂ ∧
          found = found₁ ∪ found₂) ∧
    (∀ all, ((afterChange store o none).run.run e).1 = .ok all →
      ∃ type paths, store.runtimeType o = .ok type ∧
        ((relevantPaths type).run.run e).1 = .ok paths ∧
        ∀ d : DirtySet, ∃ found, ((afterChange store o (some d)).run.run e).1 = .ok found ∧
          (∀ r ∈ found, r ∈ all) ∧ ((∀ path ∈ paths, path ∈ d) → found = all)) ∧
    ∀ (d₁ d₂ : DirtySet) outcome,
      (((Plan.recorded .atOnce [(o, .update (some d₁)), (o, .update (some d₂))]).process
        store).run.run e).1 = .ok outcome ↔
        ∃ first second,
          (((Plan.recorded .atOnce [(o, .update (some d₁))]).process store).run.run e).1 =
            .ok first ∧
          (((Plan.recorded .atOnce [(o, .update (some d₂))]).process store).run.run e).1 =
            .ok second ∧
          outcome = { works := first.works.mergeAll second.works.inOrder, postponed := [] } := by
  have hm := Schema.coherent_of_accepted hschema
  have hclosed := Mapping.closed_of_compile hm hcompile
  have hreliable := reliable_of_reached hcompile hreach
  simp only [run_afterChange hcompile hreach]
  refine ⟨fun d₁ d₂ found => changeAnswer_union_eq_ok hm hclosed, fun all hall => ?_,
    fun d₁ d₂ outcome => ?_⟩
  · obtain ⟨⟨type, ho, hcheck⟩, -⟩ := changeAnswer_spec hm hclosed hall
    obtain ⟨paths, hpaths, hrelevant⟩ := exists_relevantPaths hclosed hcompile hreach ho hcheck
    refine ⟨type, paths, ho, hpaths, fun d => ?_⟩
    obtain ⟨found, hfound, hsub, heq⟩ := exists_changeAnswer_of_any hm hclosed hall d
    refine ⟨found, hfound, hsub, fun hevery => heq fun t ht hchanged => ?_⟩
    exact DirtySet.hits_of_mem (hevery _ (hrelevant t ht hchanged))
  · simp only [Plan.process_updated_eq_ok hreliable (Plan.changes_two_updates _ _ _ _),
      Plan.process_updated_eq_ok hreliable (Plan.changes_update _ _ _),
      changeAnswer_union_eq_ok hm hclosed]
    constructor
    · rintro ⟨_, ⟨found₁, found₂, h₁, h₂, rfl⟩, rfl⟩
      refine ⟨_, _, ⟨found₁, h₁, rfl⟩, ⟨found₂, h₂, rfl⟩, ?_⟩
      rw [Plan.mergeAll_updates_union]
    · rintro ⟨_, _, ⟨found₁, h₁, rfl⟩, ⟨found₂, h₂, rfl⟩, rfl⟩
      refine ⟨_, ⟨found₁, found₂, h₁, h₂, rfl⟩, ?_⟩
      rw [Plan.mergeAll_updates_union]

theorem afterChange_additive_couple :
    (∃ found₁ found₂,
      ((afterChange Sample.couple 1 (some Sample.newName)).run.run Sample.coupleEngine).1 =
        .ok found₁ ∧
      ((afterChange Sample.couple 1 (some Sample.newSpouse)).run.run Sample.coupleEngine).1 =
        .ok found₂ ∧
      ((afterChange Sample.couple 1 (some (Sample.newName ∪ Sample.newSpouse))).run.run
        Sample.coupleEngine).1 = .ok (found₁ ∪ found₂)) ∧
    (∃ type paths, Sample.couple.runtimeType 1 = .ok type ∧
      ((relevantPaths type).run.run Sample.coupleEngine).1 = .ok paths ∧
      ∀ d : DirtySet, ∃ found,
        ((afterChange Sample.couple 1 (some d)).run.run Sample.coupleEngine).1 = .ok found ∧
        (∀ r ∈ found, r ∈ Sample.coupleFound) ∧
        ((∀ path ∈ paths, path ∈ d) → found = Sample.coupleFound)) ∧
    ∃ both first second,
      (((Plan.recorded .atOnce [(1, .update (some Sample.newName)),
        (1, .update (some Sample.newSpouse))]).process Sample.couple).run.run
        Sample.coupleEngine).1 = .ok both ∧
      (((Plan.recorded .atOnce [(1, .update (some Sample.newName))]).process
        Sample.couple).run.run Sample.coupleEngine).1 = .ok first ∧
      (((Plan.recorded .atOnce [(1, .update (some Sample.newSpouse))]).process
        Sample.couple).run.run Sample.coupleEngine).1 = .ok second ∧
      both.works = first.works.mergeAll second.works.inOrder := by
  have hstart : Reached Sample.coupleSchema Sample.spouses.mapping {} Sample.coupleEngine :=
    .start (Except.eq_ok_value _)
  obtain ⟨hunion, hany, hplan⟩ :=
    afterChange_additive (Except.eq_ok_value _) Sample.compile_couple hstart Sample.couple 1
  have hjoined : ((afterChange Sample.couple 1
      (some (Sample.newName ∪ Sample.newSpouse))).run.run Sample.coupleEngine).1.isOk = true := by
    decide +kernel
  have hprocessed : (((Plan.recorded .atOnce [(1, .update (some Sample.newName)),
      (1, .update (some Sample.newSpouse))]).process Sample.couple).run.run
      Sample.coupleEngine).1.isOk = true := by
    decide +kernel
  obtain ⟨found₁, found₂, h₁, h₂, hfound⟩ := (hunion _ _ _).mp (Except.eq_ok_value hjoined)
  obtain ⟨first, second, hfirst, hsecond, hworks⟩ :=
    (hplan _ _ _).mp (Except.eq_ok_value hprocessed)
  exact ⟨⟨found₁, found₂, h₁, h₂, hfound ▸ Except.eq_ok_value hjoined⟩,
    hany _ (Except.eq_ok_value _),
    _, first, second, Except.eq_ok_value hprocessed, hfirst, hsecond, congrArg (·.works) hworks⟩

end Engine

end IndexSync
