import IndexSync.Proofs.Answers
import IndexSync.Proofs.Plan.Events
import IndexSync.Proofs.Plan.Works
import IndexSync.Proofs.Tree.Parts

/-!
# What changes call for

Processing a plan merges what each of its changes calls for.

- `Plan.callsFor` — the works that one change calls for: one on its own document, and
  updates of the documents that it is found to matter to.
- `Plan.mem_callsFor` — these works by what became of the object.
- `Plan.foldlM_extended_eq_ok` — merging change after change is merging all that they call
  for.
- `Plan.mem_works_of_process` — the works of a plan are the strongest of all calls on each
  document.
-/

namespace IndexSync

/-- What is asked of the engine when an object's fate is worked out at once. -/
def Fate.request {schema : Schema} (store : ObjectStore schema) (object : ObjectId) :
    Fate → Request schema EntitySet
  | .added => Engine.afterChange store object none
  | .updated dirty => Engine.afterChange store object dirty
  | .deleted false => Engine.afterDelete store object
  | .deleted true => pure ∅

/-- The answer to that. -/
def Fate.answer {schema : Schema} (mapping : Mapping schema) (settings : Settings)
    (store : ObjectStore schema) (object : ObjectId) : Fate → Except SyncError EntitySet
  | .added => Engine.changeAnswer mapping settings store object none
  | .updated dirty => Engine.changeAnswer mapping settings store object dirty
  | .deleted false => Engine.deleteAnswer mapping settings store object
  | .deleted true => .ok ∅

/-- What is done to the object's own document. -/
def Fate.ownAction? : Fate → Option Action
  | .added => some .add
  | .updated _ => none
  | .deleted false => some .delete
  | .deleted true => none

/-- What is left for later. -/
def Fate.postponed (object : ObjectId) : Timing → Fate → List Postponed
  | .deletesAtOnce, .added => [{ object, dirty := none }]
  | .deletesAtOnce, .updated dirty => [{ object, dirty }]
  | _, _ => []

theorem Fate.postponed_atOnce (object : ObjectId) (fate : Fate) :
    fate.postponed object .atOnce = [] := by
  cases fate <;> rfl

theorem Fate.postponed_deleted (object : ObjectId) (timing : Timing) (wasAdded : Bool) :
    (Fate.deleted wasAdded).postponed object timing = [] := by
  cases timing <;> rfl

namespace Plan

variable {schema : Schema} {mapping : Mapping schema} {settings : Settings}
  {store : ObjectStore schema} {object : ObjectId} {timing : Timing} {fate : Fate}

/-- Updates of documents. -/
def updates (found : EntitySet) : List Work :=
  found.toList.map fun r => { reference := r, action := .update }

/-- An action on the object's own document, if it has one. -/
def ownCalls (store : ObjectStore schema) (object : ObjectId) (indexed : Bool) (action : Action) :
    Except SyncError (List Work) :=
  if indexed then do
    return [{ reference := ← (store.reference object).mapError .data, action }]
  else return []

/-- Updates of the documents found, unless these are left for later. -/
def otherCalls (mapping : Mapping schema) (settings : Settings) (timing : Timing)
    (store : ObjectStore schema) (object : ObjectId) (fate : Fate) :
    Except SyncError (List Work) :=
  match timing, fate with
  | .deletesAtOnce, .added | .deletesAtOnce, .updated _ => return []
  | _, _ => return updates (← fate.answer mapping settings store object)

theorem otherCalls_deleted (mapping : Mapping schema) (settings : Settings) (timing : Timing)
    (store : ObjectStore schema) (object : ObjectId) (wasAdded : Bool) :
    otherCalls mapping settings timing store object (.deleted wasAdded) = do
      return updates (← (Fate.deleted wasAdded).answer mapping settings store object) := by
  cases timing <;> rfl

/-- The works that a change calls for. -/
def callsFor (mapping : Mapping schema) (settings : Settings) (timing : Timing)
    (store : ObjectStore schema) (object : ObjectId) (fate : Fate) :
    Except SyncError (List Work) := do
  let type ← (store.runtimeType object).mapError .data
  let own := ownCalls store object (mapping.isIndexed type)
  let others := otherCalls mapping settings timing store object fate
  match fate with
  | .added => return (← own .add) ++ (← others)
  | .updated _ => others
  | .deleted false => return (← others) ++ (← own .delete)
  | .deleted true => return []

/-- The outcome with what one more change calls for. -/
def extended (mapping : Mapping schema) (settings : Settings) (timing : Timing)
    (store : ObjectStore schema) (outcome : Outcome) (change : ObjectId × Fate) :
    Except SyncError Outcome := do
  let calls ← callsFor mapping settings timing store change.1 change.2
  return { works := outcome.works.mergeAll calls,
           postponed := outcome.postponed ++ change.2.postponed change.1 timing }

/-! ## Processing as merging -/

theorem answers_request (fate : Fate) :
    Engine.Answers mapping settings (fate.request store object)
      (fate.answer mapping settings store object) := by
  cases fate with
  | added => exact Engine.answers_afterChange store object none
  | updated dirty => exact Engine.answers_afterChange store object dirty
  | deleted wasAdded =>
      cases wasAdded with
      | true => exact Engine.Answers.pure ∅
      | false => exact Engine.answers_afterDelete store object

theorem answers_ownReference (store : ObjectStore schema) (object : ObjectId) :
    Engine.Answers mapping settings (ownReference store object)
      ((store.reference object).mapError .data) := by
  unfold ownReference
  cases store.reference object with
  | ok r => exact Engine.Answers.pure r
  | error err => exact Engine.Answers.throw (.data err)

theorem answers_mergeOwn_bind {β : Type} {works : Works} {indexed : Bool} {action : Action}
    {f : Works → Request schema β} {next : List Work → Except SyncError β}
    (hf : ∀ own, Engine.Answers mapping settings (f (works.mergeAll own)) (next own)) :
    Engine.Answers mapping settings (mergeOwn store object indexed action works >>= f)
      (ownCalls store object indexed action >>= next) := by
  cases indexed with
  | false => exact hf []
  | true =>
      simp only [mergeOwn, ownCalls, if_true, bind_assoc, pure_bind]
      exact (answers_ownReference store object).bind fun r => hf [⟨r, action⟩]

/-- What is not worked out is left for later. -/
theorem answers_later (works : Works) (postponed : List Postponed) (dirty : Option DirtySet) :
    Engine.Answers mapping settings
      (match timing with
        | .atOnce => do
          let found ← Engine.afterChange store object dirty
          return ({ works := works.mergeUpdates found, postponed } : Outcome)
        | .deletesAtOnce => return { works, postponed := postponed ++ [{ object, dirty }] })
      (do
        let others ← otherCalls mapping settings timing store object (.updated dirty)
        return { works := works.mergeAll others,
                 postponed := postponed ++ Fate.postponed object timing (.updated dirty) }) := by
  cases timing with
  | atOnce =>
      simp only [otherCalls, bind_assoc, pure_bind, Works.mergeUpdates_eq, Fate.postponed,
        List.append_nil]
      exact (Engine.answers_afterChange store object dirty).bind fun found =>
        Engine.Answers.pure _
  | deletesAtOnce => exact Engine.Answers.pure _

/-- Processing a change merges what it calls for. -/
theorem answers_processChange (outcome : Outcome) :
    Engine.Answers mapping settings (processChange timing store outcome object fate)
      (extended mapping settings timing store outcome (object, fate)) := by
  unfold processChange extended callsFor
  rw [bind_assoc]
  refine (Engine.answers_runtimeType store object).bind fun type => ?_
  refine Engine.Answers.get_bind fun e he => ?_
  rw [he]
  cases fate with
  | added =>
      -- an object that is new counts as changed in any way
      have hothers : otherCalls mapping settings timing store object .added =
          otherCalls mapping settings timing store object (.updated none) := by
        cases timing <;> rfl
      have hpostponed : Fate.postponed object timing .added =
          Fate.postponed object timing (.updated none) := by
        cases timing <;> rfl
      simp only [bind_assoc, pure_bind, hothers, hpostponed, Works.mergeAll_append]
      exact answers_mergeOwn_bind fun own => answers_later _ _ _
  | updated dirty => exact answers_later _ _ _
  | deleted wasAdded =>
      rw [Fate.postponed_deleted, List.append_nil]
      cases wasAdded with
      | true => exact Engine.Answers.pure outcome
      | false =>
          simp only [otherCalls_deleted, bind_assoc, pure_bind, Works.mergeUpdates_eq,
            Works.mergeAll_append]
          refine (Engine.answers_afterDelete store object).bind fun found => ?_
          exact answers_mergeOwn_bind fun own => Engine.Answers.pure _

theorem answers_process (p : Plan) (store : ObjectStore schema) :
    Engine.Answers mapping settings (p.process store)
      (p.changes.foldlM (extended mapping settings p.timing store)
        { works := ∅, postponed := [] }) := by
  rw [process_eq]
  exact Engine.Answers.foldlM (fun outcome _ => answers_processChange outcome) _ _

/-! ## The works of a plan -/

/-- A change of the list calls for the action on the document. -/
inductive Calls (mapping : Mapping schema) (settings : Settings) (timing : Timing)
    (store : ObjectStore schema) (changes : List (ObjectId × Fate)) : EntityRef → Action → Prop
  /-- The object has a document of its own. -/
  | own {object : ObjectId} {fate : Fate} {r : EntityRef} {a : Action} :
      (object, fate) ∈ changes → fate.ownAction? = some a → mapping.HasDocument store object →
      store.reference object = .ok r → Calls mapping settings timing store changes r a
  /-- The document is found from the object. -/
  | found {object : ObjectId} {fate : Fate} {found : EntitySet} {r : EntityRef} :
      (object, fate) ∈ changes → fate.postponed object timing = [] →
      fate.answer mapping settings store object = .ok found → r ∈ found →
      Calls mapping settings timing store changes r .update

theorem hasDocument_iff_isIndexed {type : TypeName} (h : store.runtimeType object = .ok type) :
    mapping.HasDocument store object ↔ mapping.isIndexed type = true := by
  constructor
  · rintro ⟨type', h', hindexed⟩
    cases h.symm.trans h'
    exact hindexed
  · intro hindexed
    exact ⟨type, h, hindexed⟩

theorem exists_reference_of_ownCalls {a : Action} {own : List Work}
    (h : ownCalls store object true a = .ok own) :
    ∃ r, store.reference object = .ok r ∧ own = [⟨r, a⟩] := by
  obtain ⟨r, hr, hown⟩ := Except.bind_eq_ok.mp h
  exact ⟨r, Except.mapError_eq_ok.mp hr, (Except.pure_eq_ok.mp hown).symm⟩

theorem mem_ownCalls {type : TypeName} {a b : Action} {own : List Work} {r : EntityRef}
    (htype : store.runtimeType object = .ok type)
    (h : ownCalls store object (mapping.isIndexed type) a = .ok own) :
    ⟨r, b⟩ ∈ own ↔ b = a ∧ mapping.HasDocument store object ∧ store.reference object = .ok r := by
  rw [hasDocument_iff_isIndexed htype]
  cases hindexed : mapping.isIndexed type with
  | false =>
      rw [hindexed] at h
      cases Except.pure_eq_ok.mp h
      simp
  | true =>
      rw [hindexed] at h
      obtain ⟨r', hr', rfl⟩ := exists_reference_of_ownCalls h
      simp [hr', and_comm, eq_comm]

theorem mem_updates {found : EntitySet} {r : EntityRef} {a : Action} :
    ⟨r, a⟩ ∈ updates found ↔ a = .update ∧ r ∈ found := by
  simp [updates, eq_comm, and_comm]

theorem mem_otherCalls {others : List Work} {r : EntityRef} {a : Action}
    (h : otherCalls mapping settings timing store object fate = .ok others) :
    ⟨r, a⟩ ∈ others ↔ a = .update ∧ fate.postponed object timing = [] ∧
      ∃ found, fate.answer mapping settings store object = .ok found ∧ r ∈ found := by
  unfold otherCalls at h
  split at h
  · cases Except.pure_eq_ok.mp h
    simp [Fate.postponed]
  · cases Except.pure_eq_ok.mp h
    simp [Fate.postponed]
  · rename_i hadded hupdated
    have hnow : fate.postponed object timing = [] := by
      cases timing with
      | atOnce => exact fate.postponed_atOnce object
      | deletesAtOnce =>
          cases fate with
          | added => exact (hadded rfl rfl).elim
          | updated dirty => exact (hupdated dirty rfl rfl).elim
          | deleted wasAdded => exact Fate.postponed_deleted object _ wasAdded
    obtain ⟨found, hfound, hothers⟩ := Except.bind_eq_ok.mp h
    cases Except.pure_eq_ok.mp hothers
    rw [mem_updates, hnow, hfound]
    simp

/-- What a change calls for is an action on its object's own document, and updates of
others. -/
theorem callsFor_eq_ok {calls : List Work}
    (h : callsFor mapping settings timing store object fate = .ok calls) :
    ∃ type own others, store.runtimeType object = .ok type ∧
      (fate.ownAction? = none → own = []) ∧
      (∀ a, fate.ownAction? = some a →
        ownCalls store object (mapping.isIndexed type) a = .ok own) ∧
      otherCalls mapping settings timing store object fate = .ok others ∧
      ∀ call, call ∈ calls ↔ call ∈ own ∨ call ∈ others := by
  obtain ⟨type, htype, h⟩ := Except.bind_eq_ok.mp h
  have htype := Except.mapError_eq_ok.mp htype
  cases fate with
  | added =>
      obtain ⟨own, hown, h⟩ := Except.bind_eq_ok.mp h
      obtain ⟨others, hothers, h⟩ := Except.bind_eq_ok.mp h
      cases Except.pure_eq_ok.mp h
      refine ⟨type, own, others, htype, nofun, ?_, hothers, fun _ => List.mem_append⟩
      rintro _ ⟨⟩
      exact hown
  | updated dirty =>
      exact ⟨type, [], calls, htype, fun _ => rfl, nofun, h, by simp⟩
  | deleted wasAdded =>
      cases wasAdded with
      | true =>
          have hothers : otherCalls mapping settings timing store object (.deleted true) =
              .ok (updates ∅) := otherCalls_deleted mapping settings timing store object true
          cases Except.pure_eq_ok.mp h
          refine ⟨type, [], _, htype, fun _ => rfl, nofun, hothers, fun call => ?_⟩
          simp [updates]
      | false =>
          obtain ⟨others, hothers, h⟩ := Except.bind_eq_ok.mp h
          obtain ⟨own, hown, h⟩ := Except.bind_eq_ok.mp h
          cases Except.pure_eq_ok.mp h
          refine ⟨type, own, others, htype, nofun, ?_, hothers, fun _ => ?_⟩
          · rintro _ ⟨⟩
            exact hown
          · rw [List.mem_append, or_comm]

/-- What one change calls for, by what became of its object. -/
theorem mem_callsFor {calls : List Work} {r : EntityRef} {a : Action}
    (h : callsFor mapping settings timing store object fate = .ok calls) :
    ⟨r, a⟩ ∈ calls ↔
      (fate.ownAction? = some a ∧ mapping.HasDocument store object ∧
        store.reference object = .ok r) ∨
      (a = .update ∧ fate.postponed object timing = [] ∧
        ∃ found, fate.answer mapping settings store object = .ok found ∧ r ∈ found) := by
  obtain ⟨type, own, others, htype, hnone, hsome, hothers, hmem⟩ := callsFor_eq_ok h
  rw [hmem, mem_otherCalls hothers]
  cases haction : fate.ownAction? with
  | none =>
      rw [hnone haction]
      simp
  | some b =>
      rw [mem_ownCalls htype (hsome b haction), Option.some_inj, eq_comm]

/-- Where something is done to the object's own document, it has a reference. -/
theorem exists_reference_of_callsFor {calls : List Work} {a : Action}
    (h : callsFor mapping settings timing store object fate = .ok calls)
    (haction : fate.ownAction? = some a) (hdoc : mapping.HasDocument store object) :
    ∃ r, store.reference object = .ok r := by
  obtain ⟨type, own, others, htype, -, hsome, -, -⟩ := callsFor_eq_ok h
  have hown := hsome a haction
  rw [(hasDocument_iff_isIndexed htype).mp hdoc] at hown
  obtain ⟨r, hr, -⟩ := exists_reference_of_ownCalls hown
  exact ⟨r, hr⟩

/-- Merging change after change is merging all that they call for, and leaving for later
all that they do. -/
theorem foldlM_extended_eq_ok {changes : List (ObjectId × Fate)} {start outcome : Outcome} :
    changes.foldlM (extended mapping settings timing store) start = .ok outcome ↔
      ∃ calls, List.Forall₂ (fun change made =>
          callsFor mapping settings timing store change.1 change.2 = .ok made) changes calls ∧
        outcome = {
          works := start.works.mergeAll calls.flatten,
          postponed := start.postponed ++
            changes.flatMap fun change => change.2.postponed change.1 timing } := by
  induction changes generalizing start with
  | nil =>
      rw [List.foldlM_nil_eq_ok]
      constructor
      · rintro rfl
        exact ⟨[], .nil, by simp [Works.mergeAll]⟩
      · rintro ⟨calls, ⟨⟩, rfl⟩
        simp [Works.mergeAll]
  | cons change changes ih =>
      simp only [List.foldlM_cons_eq_ok, extended, Except.bind_eq_ok, Except.pure_eq_ok, ih,
        List.forall₂_cons_left_iff]
      constructor
      · rintro ⟨_, ⟨made, hmade, rfl⟩, calls, hcalls, rfl⟩
        refine ⟨made :: calls, ⟨made, calls, hmade, hcalls, rfl⟩, ?_⟩
        rw [List.flatten_cons, Works.mergeAll_append, List.flatMap_cons, List.append_assoc]
      · rintro ⟨_, ⟨made, calls, hmade, hcalls, rfl⟩, rfl⟩
        refine ⟨_, ⟨made, hmade, rfl⟩, calls, hcalls, ?_⟩
        rw [List.flatten_cons, Works.mergeAll_append, List.flatMap_cons, List.append_assoc]

/-- The works of a plan are the strongest that its changes call for, document by
document. -/
theorem mem_works_of_process {e : Engine schema} (h : e.Reliable mapping settings) {p : Plan}
    {outcome : Outcome} (hrun : ((p.process store).run.run e).1 = .ok outcome) {r : EntityRef}
    {a : Action} :
    ⟨r, a⟩ ∈ outcome.works.inOrder ↔
      Calls mapping settings p.timing store p.changes r a ∧
      ∀ b, Calls mapping settings p.timing store p.changes r b → b.strength ≤ a.strength := by
  obtain ⟨e', hanswer, -⟩ := answers_process p store e h
  rw [hanswer] at hrun
  obtain ⟨calls, hcalls, rfl⟩ := foldlM_extended_eq_ok.mp hrun
  have hmem : ∀ {b : Action}, ⟨r, b⟩ ∈ calls.flatten ↔
      Calls mapping settings p.timing store p.changes r b := by
    intro b
    rw [List.mem_flatten]
    constructor
    · rintro ⟨made, hmade, hb⟩
      obtain ⟨⟨object, fate⟩, hchange, hok⟩ := List.Forall₂.exists_left hcalls hmade
      rcases (mem_callsFor hok).mp hb with ⟨haction, hdoc, href⟩ | ⟨rfl, hnow, found, hfound, hr⟩
      · exact .own hchange haction hdoc href
      · exact .found hchange hnow hfound hr
    · intro hb
      cases hb with
      | own hchange haction hdoc href =>
          obtain ⟨made, hmade, hok⟩ := List.Forall₂.exists_right hcalls hchange
          exact ⟨made, hmade, (mem_callsFor hok).mpr (.inl ⟨haction, hdoc, href⟩)⟩
      | found hchange hnow hfound hr =>
          obtain ⟨made, hmade, hok⟩ := List.Forall₂.exists_right hcalls hchange
          exact ⟨made, hmade, (mem_callsFor hok).mpr (.inr ⟨rfl, hnow, _, hfound, hr⟩)⟩
  rw [Works.mem_inOrder_mergeAll]
  simp only [Works.IsStrongest, hmem]

/-- A plan is processed only if every change can be. -/
theorem exists_callsFor_of_process {e : Engine schema} (h : e.Reliable mapping settings) {p : Plan}
    {outcome : Outcome} (hrun : ((p.process store).run.run e).1 = .ok outcome)
    (hchange : (object, fate) ∈ p.changes) :
    ∃ calls, callsFor mapping settings p.timing store object fate = .ok calls := by
  obtain ⟨e', hanswer, -⟩ := answers_process p store e h
  rw [hanswer] at hrun
  obtain ⟨calls, hcalls, -⟩ := foldlM_extended_eq_ok.mp hrun
  obtain ⟨made, -, hok⟩ := List.Forall₂.exists_right hcalls hchange
  exact ⟨made, hok⟩

end Plan

end IndexSync
