import Mathlib.Data.List.Induction
import Mathlib.Data.List.Nodup
import IndexSync.Plan

/-!
# What a plan remembers

A plan keeps one fate for each object, however many events are recorded for it.

- `Plan.recorded` — the plan after a list of events.
- `Plan.InStep` — the order of the objects and the table of their fates agree; every event
  keeps them so (`InStep.note`, `inStep_recorded`).
- `Plan.changes` — the changes that are worked out one after another (`process_eq`), none of
  which is missing (`InStep.objects_changes`).
- `Plan.fates_recorded` — an object's fate is what its own events come to, in the order in
  which they were recorded, and `Plan.mem_changes_recorded` finds it among the changes.
- `Plan.Settles` — what a fate tells about the events behind it
  (`settles_of_fateOf_eq_some`); `fateOf_eq_deleted` is the case of an object that was
  deleted last.
-/

namespace IndexSync.Plan

/-- What can be recorded for an object. -/
inductive Event where
  | add
  /-- Without paths, any may have changed. -/
  | update (dirty : Option DirtySet)
  | delete
deriving DecidableEq

namespace Event

/-- What an event alone makes of an object. -/
def fate : Event → Fate
  | add => .added
  | update dirty => .updated dirty
  | delete => .deleted false

def addsOrDeletes : Event → Bool
  | add | delete => true
  | update _ => false

end Event

/-- Records one event. -/
def record (p : Plan) : ObjectId × Event → Plan
  | (object, .add) => p.add object
  | (object, .update dirty) => p.update object dirty
  | (object, .delete) => p.delete object

/-- The plan after events, first to last. -/
def recorded (timing : Timing) (events : List (ObjectId × Event)) : Plan :=
  events.foldl record (empty timing)

/-- The events of one object, in order. -/
def eventsOf (object : ObjectId) (events : List (ObjectId × Event)) : List Event :=
  (events.filter (·.1 = object)).map (·.2)

/-- What events come to that are recorded for one object. -/
def fateOf (history : List Event) : Option Fate :=
  history.foldl (fun fate event => some (fate.elim event.fate (·.merge event.fate))) none

/-- The last event that is not an update. -/
def lastAddOrDelete (history : List Event) : Option Event :=
  (history.filter Event.addsOrDeletes).getLast?

/-- What a fate tells about the events that led to it. -/
def Settles (history : List Event) : Fate → Prop
  | .added => lastAddOrDelete history = some .add
  | .updated _ => lastAddOrDelete history = none
  | .deleted wasAdded =>
    lastAddOrDelete history = some .delete ∧ (wasAdded = true ↔ .add ∈ history)

/-- The order holds the objects that have a fate, each once. -/
structure InStep (p : Plan) : Prop where
  nodup : p.order.Nodup
  mem_order : ∀ object, object ∈ p.order ↔ object ∈ p.fates

/-- The changes in order.  An object without a fate is passed over. -/
def changes (p : Plan) : List (ObjectId × Fate) :=
  p.order.filterMap fun object => (p.fates[object]?).map (object, ·)

variable {timing : Timing} {events : List (ObjectId × Event)} {history : List Event} {fate : Fate}
  {p : Plan} {object : ObjectId}

/-! ## Order and table -/

theorem order_note (p : Plan) (object : ObjectId) (event : Fate) :
    (p.note object event).order =
      if object ∈ p.fates then p.order else p.order ++ [object] := by
  simp only [note, Std.ExtTreeMap.mem_iff_isSome_getElem?]
  cases p.fates[object]? <;> rfl

theorem fates_note (p : Plan) (object : ObjectId) (event : Fate) :
    (p.note object event).fates =
      p.fates.insert object ((p.fates[object]?).elim event (·.merge event)) := by
  unfold note
  cases p.fates[object]? <;> rfl

theorem inStep_empty (timing : Timing) : (empty timing).InStep where
  nodup := List.nodup_nil
  mem_order _ := iff_of_false List.not_mem_nil Std.ExtTreeMap.not_mem_empty

theorem inStep_clear (p : Plan) : p.clear.InStep := inStep_empty p.timing

/-- A new object is put at the end of the order and into the table, a known one into
neither. -/
theorem InStep.note (h : p.InStep) (object : ObjectId) (event : Fate) :
    (p.note object event).InStep := by
  by_cases hknown : object ∈ p.fates
  · refine ⟨?_, fun x => ?_⟩
    · rw [order_note, if_pos hknown]
      exact h.nodup
    · rw [order_note, if_pos hknown, fates_note, Std.ExtTreeMap.mem_insert,
        Std.compare_eq_iff_eq, h.mem_order, or_iff_right_of_imp]
      rintro rfl
      exact hknown
  · have hnew : object ∉ p.order := fun hmem => hknown ((h.mem_order object).mp hmem)
    refine ⟨?_, fun x => ?_⟩
    · rw [order_note, if_neg hknown, ← List.concat_eq_append]
      exact h.nodup.concat hnew
    · rw [order_note, if_neg hknown, fates_note, Std.ExtTreeMap.mem_insert,
        Std.compare_eq_iff_eq, List.mem_append, List.mem_singleton, h.mem_order, or_comm,
        eq_comm]

/-! ## Changes -/

theorem mem_changes : (object, fate) ∈ p.changes ↔
    object ∈ p.order ∧ p.fates[object]? = some fate := by
  simp [changes]

/-- Nothing is passed over. -/
theorem InStep.objects_changes (h : p.InStep) : p.changes.map (·.1) = p.order := by
  have hsome : ∀ object ∈ p.order, ((p.fates[object]?).map (object, ·)).map (·.1) =
      some object := by
    intro object hobject
    have hfate := Std.ExtTreeMap.mem_iff_isSome_getElem?.mp ((h.mem_order object).mp hobject)
    obtain ⟨fate, hfate⟩ := Option.isSome_iff_exists.mp hfate
    rw [hfate]
    rfl
  rw [changes, List.map_filterMap, List.filterMap_congr hsome, List.filterMap_some]

theorem process_eq {schema : Schema} (p : Plan) (store : ObjectStore schema) :
    p.process store = p.changes.foldlM
      (fun outcome change => processChange p.timing store outcome change.1 change.2)
      { works := ∅, postponed := [] } := by
  unfold process changes
  rw [List.foldlM_filterMap]
  congr 1
  funext outcome object
  cases p.fates[object]? <;> rfl

/-! ## One change for each object -/

theorem record_eq_note (p : Plan) (object : ObjectId) (event : Event) :
    p.record (object, event) = p.note object event.fate := by
  cases event <;> rfl

theorem recorded_snoc (timing : Timing) (events : List (ObjectId × Event)) (object : ObjectId)
    (event : Event) : recorded timing (events ++ [(object, event)]) =
      (recorded timing events).note object event.fate := by
  unfold recorded
  rw [List.foldl_append]
  exact record_eq_note _ object event

/-- Whatever is recorded, the order and the table stay in step. -/
theorem inStep_recorded (timing : Timing) (events : List (ObjectId × Event)) :
    (recorded timing events).InStep := by
  induction events using List.reverseRecOn with
  | nil => exact inStep_empty timing
  | append_singleton events last ih =>
      rw [recorded_snoc]
      exact ih.note last.1 last.2.fate

theorem timing_recorded (timing : Timing) (events : List (ObjectId × Event)) :
    (recorded timing events).timing = timing := by
  induction events using List.reverseRecOn with
  | nil => rfl
  | append_singleton events last ih =>
      rw [recorded_snoc]
      unfold note
      split <;> exact ih

/-! ## Fates and histories -/

theorem eventsOf_snoc (object : ObjectId) (events : List (ObjectId × Event))
    (last : ObjectId × Event) : eventsOf object (events ++ [last]) =
      if last.1 = object then eventsOf object events ++ [last.2] else eventsOf object events := by
  unfold eventsOf
  rw [List.filter_append, List.map_append]
  by_cases h : last.1 = object <;> simp [h]

theorem fateOf_snoc (history : List Event) (last : Event) : fateOf (history ++ [last]) =
    some ((fateOf history).elim last.fate (·.merge last.fate)) := by
  unfold fateOf
  rw [List.foldl_append]
  rfl

/-- An object's fate is what its own events come to. -/
theorem fates_recorded (timing : Timing) (events : List (ObjectId × Event)) (object : ObjectId) :
    (recorded timing events).fates[object]? = fateOf (eventsOf object events) := by
  induction events using List.reverseRecOn with
  | nil => exact Std.ExtTreeMap.getElem?_empty
  | append_singleton events last ih =>
      rw [recorded_snoc, eventsOf_snoc, fates_note, Std.ExtTreeMap.getElem?_insert]
      simp only [Std.compare_eq_iff_eq]
      by_cases h : last.1 = object
      · subst h
        rw [if_pos rfl, if_pos rfl, fateOf_snoc, ih]
      · rw [if_neg h, if_neg h, ih]

theorem mem_changes_recorded :
    (object, fate) ∈ (recorded timing events).changes ↔
      fateOf (eventsOf object events) = some fate := by
  rw [mem_changes, fates_recorded, and_iff_right_of_imp]
  intro hfate
  rw [(inStep_recorded timing events).mem_order, Std.ExtTreeMap.mem_iff_isSome_getElem?,
    fates_recorded, hfate]
  rfl

/-- When consequences are worked out makes no difference to what is noted. -/
theorem changes_recorded (timing timing' : Timing) (events : List (ObjectId × Event)) :
    (recorded timing events).changes = (recorded timing' events).changes := by
  have hfates : ∀ events, (recorded timing events).fates = (recorded timing' events).fates :=
    fun events => Std.ExtTreeMap.ext_getElem? fun object => by rw [fates_recorded, fates_recorded]
  have horder : (recorded timing events).order = (recorded timing' events).order := by
    induction events using List.reverseRecOn with
    | nil => rfl
    | append_singleton events last ih =>
        rw [recorded_snoc, recorded_snoc, order_note, order_note, hfates, ih]
  rw [changes, changes, hfates, horder]

theorem lastAddOrDelete_snoc (history : List Event) (last : Event) :
    lastAddOrDelete (history ++ [last]) =
      if last.addsOrDeletes then some last else lastAddOrDelete history := by
  unfold lastAddOrDelete
  rw [List.filter_append]
  cases h : last.addsOrDeletes <;> simp [h]

theorem mem_of_lastAddOrDelete {event : Event} (h : lastAddOrDelete history = some event) :
    event ∈ history :=
  (List.mem_filter.mp (List.mem_of_getLast? h)).1

theorem add_not_mem_of_lastAddOrDelete (h : lastAddOrDelete history = none) :
    .add ∉ history := by
  intro hmem
  have hempty := List.getLast?_eq_none_iff.mp h
  exact List.filter_eq_nil_iff.mp hempty .add hmem rfl

theorem settles_single (event : Event) : Settles [event] event.fate := by
  cases event <;> simp [Settles, Event.fate, lastAddOrDelete, Event.addsOrDeletes]

theorem add_mem_snoc {last : Event} (h : .add ≠ last) :
    .add ∈ history ↔ .add ∈ history ++ [last] := by
  rw [List.mem_append, List.mem_singleton, or_iff_left h]

/-- One more event keeps what the fate tells true. -/
theorem Settles.merge {last : Event} (h : Settles history fate) :
    Settles (history ++ [last]) (fate.merge last.fate) := by
  cases last with
  | add =>
      -- whatever it was, it is added now
      have hadded : fate.merge (Event.fate .add) = .added := by cases fate <;> rfl
      rw [hadded]
      exact lastAddOrDelete_snoc history .add
  | update dirty =>
      have hlast : lastAddOrDelete (history ++ [.update dirty]) = lastAddOrDelete history :=
        lastAddOrDelete_snoc history _
      cases fate with
      | added => exact hlast.trans h
      | updated known =>
          obtain ⟨more, hmore⟩ : ∃ more, (Fate.updated known).merge (.updated dirty) =
              .updated more := by
            cases known <;> cases dirty <;> exact ⟨_, rfl⟩
          rw [show Event.fate (.update dirty) = .updated dirty from rfl, hmore]
          exact hlast.trans h
      | deleted wasAdded => exact ⟨hlast.trans h.1, h.2.trans (add_mem_snoc nofun)⟩
  | delete =>
      have hlast : lastAddOrDelete (history ++ [.delete]) = some .delete :=
        lastAddOrDelete_snoc history .delete
      have hmem : .add ∈ history ↔ .add ∈ history ++ [.delete] := add_mem_snoc nofun
      cases fate with
      | added => exact ⟨hlast, fun _ => hmem.mp (mem_of_lastAddOrDelete h), fun _ => rfl⟩
      | updated known =>
          have hnever : .add ∉ history := add_not_mem_of_lastAddOrDelete h
          exact ⟨hlast, nofun, fun hadd => absurd (hmem.mpr hadd) hnever⟩
      | deleted wasAdded => exact ⟨hlast, h.2.trans hmem⟩

theorem fateOf_eq_none (h : fateOf history = none) : history = [] := by
  cases history using List.reverseRecOn with
  | nil => rfl
  | append_singleton history last =>
      rw [fateOf_snoc] at h
      cases h

theorem settles_of_fateOf_eq_some (h : fateOf history = some fate) : Settles history fate := by
  induction history using List.reverseRecOn generalizing fate with
  | nil => cases h
  | append_singleton history last ih =>
      rw [fateOf_snoc] at h
      cases hbefore : fateOf history with
      | none =>
          rw [hbefore] at h
          cases h
          rw [fateOf_eq_none hbefore]
          exact settles_single last
      | some before =>
          rw [hbefore] at h
          cases h
          exact (ih hbefore).merge

/-- An object deleted last is remembered as added in the same unit of work if any of its
events added it. -/
theorem fateOf_eq_deleted (h : lastAddOrDelete history = some .delete) :
    fateOf history = some (.deleted (decide (.add ∈ history))) := by
  cases hfate : fateOf history with
  | none =>
      rw [fateOf_eq_none hfate] at h
      cases h
  | some fate =>
      have hsettles := settles_of_fateOf_eq_some hfate
      cases fate with
      | added => cases h.symm.trans hsettles
      | updated dirty => cases h.symm.trans hsettles
      | deleted wasAdded =>
          have hadded : decide (.add ∈ history) = wasAdded := by
            rw [Bool.eq_iff_iff, decide_eq_true_iff]
            exact hsettles.2.symm
          rw [hadded]

end IndexSync.Plan
