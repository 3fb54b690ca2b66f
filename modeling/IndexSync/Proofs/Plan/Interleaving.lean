import Mathlib.Data.List.Dedup
import Mathlib.Data.List.Perm.Basic
import IndexSync.Proofs.Plan.Calls
import IndexSync.Proofs.Plan.Events
import IndexSync.Sample.Couple

/-!
# Events of different objects

Only the events of one object have to stay in order: how those of different objects
alternate shows in the order of what is left for later, and nowhere else.

- `Plan.perm_order_recorded` — a plan holds one change for each object that has events.
- `Plan.fates_recorded_congr`, `Plan.perm_changes_recorded` — plans with the same events of
  each object hold the same changes.
- `Plan.exists_outcome_of_perm` — changes come to the same in any order.
- `Engine.reached_process` — processing a plan makes requests and does nothing else to an
  engine.
- `Plan.process_interleaved` — plans whose events alternate differently against each
  other.
-/

namespace IndexSync

open List (Perm)

variable {schema : Schema} {ds : Declarations} {mapping : Mapping schema} {settings : Settings}
  {e e' : Engine schema} {store : ObjectStore schema}

namespace Plan

variable {timing : Timing} {events events' : List (ObjectId × Event)} {object : ObjectId}

/-! ## The same changes -/

theorem eventsOf_ne_nil_iff : eventsOf object events ≠ [] ↔ object ∈ events.map (·.1) := by
  simp [eventsOf, List.filter_eq_nil_iff]

/-- There is one change for each object that has events. -/
theorem perm_order_recorded (timing : Timing) (events : List (ObjectId × Event)) :
    (recorded timing events).order.Perm (events.map (·.1)).dedup := by
  have hstep := inStep_recorded timing events
  rw [List.perm_ext_iff_of_nodup hstep.nodup (List.nodup_dedup _)]
  intro object
  rw [List.mem_dedup, ← eventsOf_ne_nil_iff, hstep.mem_order,
    Std.ExtTreeMap.mem_iff_isSome_getElem?, fates_recorded, Option.isSome_iff_ne_none]
  exact not_congr ⟨fateOf_eq_none, fun hnone => by rw [hnone]; rfl⟩

section

variable (hsame : ∀ o, eventsOf o events = eventsOf o events')
include hsame

/-- An object's fate is made of its own events, so the fates are the same. -/
theorem fates_recorded_congr (timing : Timing) :
    (recorded timing events).fates = (recorded timing events').fates :=
  Std.ExtTreeMap.ext_getElem? fun o => by rw [fates_recorded, fates_recorded, hsame o]

theorem perm_changes_recorded (timing : Timing) :
    (recorded timing events).changes.Perm (recorded timing events').changes := by
  have hmem : ∀ o, o ∈ (recorded timing events).order ↔ o ∈ (recorded timing events').order := by
    intro o
    rw [(inStep_recorded timing events).mem_order, (inStep_recorded timing events').mem_order,
      fates_recorded_congr hsame]
  rw [changes, changes, fates_recorded_congr hsame]
  apply List.Perm.filterMap
  exact (List.perm_ext_iff_of_nodup (inStep_recorded timing events).nodup
    (inStep_recorded timing events').nodup).mpr hmem

end

/-! ## Changes in any order -/

/-- Changes in another order call for the same works, and leave the same for later. -/
theorem exists_outcome_of_perm {changes changes' : List (ObjectId × Fate)}
    (h : changes.Perm changes') {outcome : Outcome}
    (hrun : changes.foldlM (extended mapping settings timing store)
      { works := ∅, postponed := [] } = .ok outcome) :
    ∃ outcome', changes'.foldlM (extended mapping settings timing store)
        { works := ∅, postponed := [] } = .ok outcome' ∧
      outcome.works = outcome'.works ∧ outcome.postponed.Perm outcome'.postponed := by
  obtain ⟨calls, hcalls, rfl⟩ := foldlM_extended_eq_ok.mp hrun
  obtain ⟨calls', hcalls', hperm⟩ := List.perm_comp_forall₂ h.symm hcalls
  refine ⟨_, foldlM_extended_eq_ok.mpr ⟨calls', hcalls', rfl⟩, ?_, ?_⟩
  · exact Works.mergeAll_congr fun call => hperm.flatten.symm.mem_iff
  · exact (h.flatMap_right _).append_left []

/-! ## Plans processed one after another -/

theorem keeps_mergeOwn {P : Engine schema → Prop} (object : ObjectId) (indexed : Bool)
    (action : Action) (works : Works) :
    Engine.Keeps P (mergeOwn store object indexed action works) := by
  cases indexed with
  | false => exact .pure works
  | true =>
      unfold mergeOwn ownReference
      cases store.reference object with
      | ok r => exact .pure _
      | error err => exact fun _ h => h

/-- Processing a change keeps what updates and deletions keep. -/
theorem keeps_processChange {P : Engine schema → Prop} {timing : Timing} {object : ObjectId}
    (hchange : ∀ dirty, Engine.Keeps P (Engine.afterChange store object dirty))
    (hdelete : Engine.Keeps P (Engine.afterDelete store object)) (outcome : Outcome)
    (fate : Fate) : Engine.Keeps P (processChange timing store outcome object fate) := by
  have hfound : ∀ (works : Works) (dirty : Option DirtySet), Engine.Keeps P (do
      let found ← Engine.afterChange store object dirty
      return { outcome with works := works.mergeUpdates found }) :=
    fun works dirty => (hchange dirty).bind fun found => .pure _
  refine (Engine.Keeps.runtimeType store object).bind fun type => ?_
  refine Engine.Keeps.get.bind fun engine => ?_
  cases fate with
  | added =>
      refine (keeps_mergeOwn object _ .add _).bind fun works => ?_
      cases timing with
      | atOnce => exact hfound works none
      | deletesAtOnce => exact .pure _
  | updated dirty =>
      cases timing with
      | atOnce => exact hfound outcome.works dirty
      | deletesAtOnce => exact .pure _
  | deleted wasAdded =>
      cases wasAdded with
      | true => exact .pure outcome
      | false =>
          refine hdelete.bind fun found => ?_
          exact (keeps_mergeOwn object _ .delete _).bind fun works => .pure _

end Plan

/-- Processing a plan makes requests and does nothing else to an engine. -/
theorem Engine.reached_process (p : Plan) (store : ObjectStore schema)
    (h : Engine.Reached schema ds settings e) :
    Engine.Reached schema ds settings ((p.process store).run.run e).2 := by
  rw [Plan.process_eq]
  refine Engine.Keeps.foldlM (P := Engine.Reached schema ds settings) ?_ p.changes _ e h
  rintro outcome ⟨object, fate⟩
  exact Plan.keeps_processChange (fun dirty _ h => h.change store object dirty)
    (fun _ h => h.delete store object) outcome fate

namespace Plan

variable {events events' : List (ObjectId × Event)}

/-! ## Two plans -/

/-- Plans with the same events of each object, in whatever way these alternate, hold one
change for each object that has events: each stands once in the order and has a fate in the
table, the same in both, and no other object does.  If one can be processed, so can the
other, and then to the same works, one for each document in order of reference, and with the
same changes left for later. -/
theorem process_interleaved (hcompile : Mapping.compile schema ds = .ok mapping)
    (hreach : Engine.Reached schema ds settings e) (hreach' : Engine.Reached schema ds settings e')
    (store : ObjectStore schema) (timing : Timing)
    (hsame : ∀ o, eventsOf o events = eventsOf o events') :
    (recorded timing events).InStep ∧ (recorded timing events').InStep ∧
    (recorded timing events).order.Perm (events.map (·.1)).dedup ∧
    (recorded timing events').order.Perm (events.map (·.1)).dedup ∧
    (recorded timing events).fates = (recorded timing events').fates ∧
    (recorded timing events).size = (recorded timing events').size ∧
    ((∃ outcome, (((recorded timing events).process store).run.run e).1 = .ok outcome) ↔
      ∃ outcome, (((recorded timing events').process store).run.run e').1 = .ok outcome) ∧
    ∀ outcome outcome' : Outcome,
      (((recorded timing events).process store).run.run e).1 = .ok outcome →
      (((recorded timing events').process store).run.run e').1 = .ok outcome' →
      outcome.works.inOrder = outcome'.works.inOrder ∧
      (outcome.works.inOrder.Pairwise fun w w' => compare w.reference w'.reference = .lt) ∧
      outcome.postponed.Perm outcome'.postponed := by
  have hstep := inStep_recorded timing events
  have hstep' := inStep_recorded timing events'
  have hperm := perm_changes_recorded hsame timing
  have horder : (recorded timing events).order.Perm (recorded timing events').order := by
    rw [← hstep.objects_changes, ← hstep'.objects_changes]
    exact hperm.map _
  have hdistinct := perm_order_recorded timing events
  obtain ⟨_, hrun, -⟩ := answers_process (recorded timing events) store e
    (Engine.reliable_of_reached hcompile hreach)
  obtain ⟨_, hrun', -⟩ := answers_process (recorded timing events') store e'
    (Engine.reliable_of_reached hcompile hreach')
  rw [hrun, hrun', timing_recorded, timing_recorded]
  refine ⟨hstep, hstep', hdistinct, horder.symm.trans hdistinct, fates_recorded_congr hsame timing,
    horder.length_eq, ⟨?_, ?_⟩, ?_⟩
  · rintro ⟨outcome, h⟩
    obtain ⟨outcome', h', -⟩ := exists_outcome_of_perm hperm h
    exact ⟨outcome', h'⟩
  · rintro ⟨outcome', h'⟩
    obtain ⟨outcome, h, -⟩ := exists_outcome_of_perm hperm.symm h'
    exact ⟨outcome, h⟩
  · intro outcome outcome' h h'
    obtain ⟨second, h'', hworks, hpostponed⟩ := exists_outcome_of_perm hperm h
    cases h''.symm.trans h'
    exact ⟨congrArg Works.inOrder hworks, outcome.works.pairwise_inOrder, hpostponed⟩

/-- One person gets a new name and a new spouse, and the other one is deleted in between or
before; the second plan is processed by the engine that the first one leaves. -/
theorem process_interleaved_couple :
    ∃ (outcome outcome' : Outcome) (e : Engine Sample.coupleSchema),
      ((recorded .deletesAtOnce [(1, .update (some Sample.newName)), (2, .delete),
        (1, .update (some Sample.newSpouse))]).process Sample.couple).run.run
          Sample.coupleEngine = (.ok outcome, e) ∧
      (((recorded .deletesAtOnce [(2, .delete), (1, .update (some Sample.newName)),
        (1, .update (some Sample.newSpouse))]).process Sample.couple).run.run e).1 =
          .ok outcome' ∧
      outcome.works.inOrder = outcome'.works.inOrder ∧
      outcome.postponed.Perm outcome'.postponed := by
  have hprocessed : (((recorded .deletesAtOnce [(1, .update (some Sample.newName)), (2, .delete),
      (1, .update (some Sample.newSpouse))]).process Sample.couple).run.run
        Sample.coupleEngine).1.isOk = true := by
    decide +kernel
  have hstart : Engine.Reached Sample.coupleSchema Sample.spouses.mapping {} Sample.coupleEngine :=
    .start (Except.eq_ok_value _)
  have hsame : ∀ o, eventsOf o [(1, .update (some Sample.newName)), (2, .delete),
      (1, .update (some Sample.newSpouse))] = eventsOf o [(2, .delete),
        (1, .update (some Sample.newName)), (1, .update (some Sample.newSpouse))] := by
    intro o
    by_cases hone : 1 = o
    · cases hone
      rfl
    · by_cases htwo : 2 = o <;> simp [eventsOf, hone, htwo]
  obtain ⟨-, -, -, -, -, -, hiff, heq⟩ := process_interleaved Sample.compile_couple hstart
    (Engine.reached_process _ Sample.couple hstart) Sample.couple .deletesAtOnce hsame
  obtain ⟨outcome', hrun'⟩ := hiff.mp ⟨_, Except.eq_ok_value hprocessed⟩
  obtain ⟨hworks, -, hpostponed⟩ := heq _ _ (Except.eq_ok_value hprocessed) hrun'
  exact ⟨_, outcome', _, Prod.ext (Except.eq_ok_value hprocessed) rfl, hrun', hworks, hpostponed⟩

end Plan

end IndexSync
