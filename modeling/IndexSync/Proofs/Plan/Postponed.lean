import IndexSync.Proofs.Plan.Calls
import IndexSync.Proofs.Plan.Events
import IndexSync.Sample.Couple

/-!
# Working out changes later

What a plan leaves for later may be caught up on: it comes to the same works.

- `Plan.callsFor_atOnce_eq_ok` — what one change calls for at once is what it calls for now
  and what it is found to call for later.
- `Plan.exists_later_of_atOnce`, `Plan.exists_atOnce_of_later` — the same for all changes of
  a plan.
- `Plan.Outcome.catchUp` — catches up on all that a plan has left.
- `Plan.process_atOnce_iff` — a plan that works out everything at once against one that
  works out only deletions.
-/

namespace IndexSync

variable {schema : Schema} {mapping : Mapping schema} {settings : Settings}
  {store : ObjectStore schema}

/-- Catches up on all that a plan has left for later, first to last. -/
def Plan.Outcome.catchUp (outcome : Plan.Outcome) (store : ObjectStore schema) :
    Request schema (List EntitySet) :=
  outcome.postponed.mapM fun d => d.catchUp store

/-- What catching up on a postponed change answers. -/
def Postponed.answer (mapping : Mapping schema) (settings : Settings) (store : ObjectStore schema)
    (d : Postponed) : Except SyncError EntitySet :=
  Engine.changeAnswer mapping settings store d.object d.dirty

theorem Postponed.answers_catchUp (d : Postponed) :
    Engine.Answers mapping settings (d.catchUp store) (d.answer mapping settings store) :=
  Engine.answers_afterChange store d.object d.dirty

/-- Updates of the documents of one set after the other are updates of all. -/
theorem Works.foldl_mergeUpdates (works : Works) (founds : List EntitySet) :
    founds.foldl mergeUpdates works = works.mergeAll (founds.flatMap Plan.updates) := by
  induction founds generalizing works with
  | nil => rfl
  | cons found founds ih =>
      rw [List.foldl_cons, ih, List.flatMap_cons, mergeAll_append, mergeUpdates_eq]
      rfl

namespace Plan

variable {object : ObjectId} {fate : Fate} {calls : List Work}

/-- What a change calls for at once is what it calls for now, and updates of the documents
that it is found to matter to later. -/
theorem callsFor_atOnce_eq_ok :
    callsFor mapping settings .atOnce store object fate = .ok calls ↔
      ∃ now founds, callsFor mapping settings .deletesAtOnce store object fate = .ok now ∧
        (fate.postponed object .deletesAtOnce).mapM (Postponed.answer mapping settings store) =
          .ok founds ∧
        calls = now ++ founds.flatMap updates := by
  cases fate with
  | added =>
      simp only [callsFor, otherCalls, Fate.answer, Fate.postponed, Postponed.answer,
        List.mapM_cons, List.mapM_nil, Except.bind_eq_ok, Except.pure_eq_ok]
      constructor
      · rintro ⟨type, htype, own, hown, _, ⟨found, hfound, rfl⟩, rfl⟩
        exact ⟨_, _, ⟨type, htype, own, hown, [], rfl, rfl⟩, ⟨found, hfound, [], rfl, rfl⟩,
          by simp⟩
      · rintro ⟨_, _, ⟨type, htype, own, hown, _, rfl, rfl⟩, ⟨found, hfound, _, rfl, rfl⟩, rfl⟩
        exact ⟨type, htype, own, hown, _, ⟨found, hfound, rfl⟩, by simp⟩
  | updated dirty =>
      simp only [callsFor, otherCalls, Fate.answer, Fate.postponed, Postponed.answer,
        List.mapM_cons, List.mapM_nil, Except.bind_eq_ok, Except.pure_eq_ok]
      constructor
      · rintro ⟨type, htype, found, hfound, rfl⟩
        exact ⟨_, _, ⟨type, htype, rfl⟩, ⟨found, hfound, [], rfl, rfl⟩, by simp⟩
      · rintro ⟨_, _, ⟨type, htype, rfl⟩, ⟨found, hfound, _, rfl, rfl⟩, rfl⟩
        exact ⟨type, htype, found, hfound, by simp⟩
  | deleted wasAdded =>
      -- deletions are worked out at once in either case
      have hsame : callsFor mapping settings .atOnce store object (.deleted wasAdded) =
          callsFor mapping settings .deletesAtOnce store object (.deleted wasAdded) := by
        simp only [callsFor, otherCalls_deleted]
      rw [hsame, Fate.postponed_deleted, List.mapM_nil]
      constructor
      · intro h
        exact ⟨calls, [], h, rfl, by simp⟩
      · rintro ⟨_, _, h, ⟨⟩, rfl⟩
        simpa using h

variable {changes : List (ObjectId × Fate)}

/-- All that changes leave for later. -/
def left (changes : List (ObjectId × Fate)) : List Postponed :=
  changes.flatMap fun change => change.2.postponed change.1 .deletesAtOnce

/-- What is worked out at once can be worked out now and later. -/
theorem exists_later_of_atOnce {made : List (List Work)}
    (h : List.Forall₂ (fun change made =>
      callsFor mapping settings .atOnce store change.1 change.2 = .ok made) changes made) :
    ∃ now founds, List.Forall₂ (fun change made =>
        callsFor mapping settings .deletesAtOnce store change.1 change.2 = .ok made) changes now ∧
      (left changes).mapM (Postponed.answer mapping settings store) = .ok founds ∧
      ∀ call, call ∈ made.flatten ↔ call ∈ now.flatten ++ founds.flatMap updates := by
  induction h with
  | nil => exact ⟨[], [], .nil, rfl, fun _ => Iff.rfl⟩
  | cons hcalls _ ih =>
      obtain ⟨now, founds, hnow, hfounds, rfl⟩ := callsFor_atOnce_eq_ok.mp hcalls
      obtain ⟨nows, rest, hnows, hrest, hmem⟩ := ih
      refine ⟨now :: nows, founds ++ rest, .cons hnow hnows, ?_, fun call => ?_⟩
      · rw [left, List.flatMap_cons, List.mapM_append, Except.bind_eq_ok]
        exact ⟨founds, hfounds, Except.bind_eq_ok.mpr ⟨rest, hrest, rfl⟩⟩
      · simp only [List.flatten_cons, List.flatMap_append, List.mem_append] at hmem ⊢
        rw [hmem, or_or_or_comm]

/-- What is worked out now and later can be worked out at once. -/
theorem exists_atOnce_of_later {now : List (List Work)} {founds : List EntitySet}
    (hnow : List.Forall₂ (fun change made =>
      callsFor mapping settings .deletesAtOnce store change.1 change.2 = .ok made) changes now)
    (hfounds : (left changes).mapM (Postponed.answer mapping settings store) = .ok founds) :
    ∃ made, List.Forall₂ (fun change made =>
        callsFor mapping settings .atOnce store change.1 change.2 = .ok made) changes made ∧
      ∀ call, call ∈ made.flatten ↔ call ∈ now.flatten ++ founds.flatMap updates := by
  induction hnow generalizing founds with
  | nil =>
      cases hfounds
      exact ⟨[], .nil, fun _ => Iff.rfl⟩
  | @cons change here _ nows hhere _ ih =>
      rw [left, List.flatMap_cons, List.mapM_append, Except.bind_eq_ok] at hfounds
      obtain ⟨first, hfirst, hfounds⟩ := hfounds
      obtain ⟨rest, hrest, hfounds⟩ := Except.bind_eq_ok.mp hfounds
      cases Except.pure_eq_ok.mp hfounds
      obtain ⟨made, hmade, hmem⟩ := ih hrest
      refine ⟨_ :: made, .cons (callsFor_atOnce_eq_ok.mpr ⟨here, first, hhere, hfirst, rfl⟩) hmade,
        fun call => ?_⟩
      simp only [List.flatten_cons, List.flatMap_append, List.mem_append] at hmem ⊢
      rw [hmem, or_or_or_comm]

/-- Working out changes at once comes to the same as working out the deletions now and
catching up on the rest later. -/
theorem foldlM_atOnce_eq_ok {outcome : Outcome} :
    changes.foldlM (extended mapping settings .atOnce store) { works := ∅, postponed := [] } =
      .ok outcome ↔
      ∃ first founds,
        changes.foldlM (extended mapping settings .deletesAtOnce store)
          { works := ∅, postponed := [] } = .ok first ∧
        first.postponed.mapM (Postponed.answer mapping settings store) = .ok founds ∧
        outcome = { works := founds.foldl Works.mergeUpdates first.works, postponed := [] } := by
  have hnone : (changes.flatMap fun change => change.2.postponed change.1 .atOnce) = [] :=
    List.flatMap_eq_nil_iff.mpr fun change _ => change.2.postponed_atOnce change.1
  simp only [foldlM_extended_eq_ok, Works.foldl_mergeUpdates, List.nil_append, hnone]
  constructor
  · rintro ⟨made, hmade, rfl⟩
    obtain ⟨now, founds, hnow, hfounds, hmem⟩ := exists_later_of_atOnce hmade
    refine ⟨_, founds, ⟨now, hnow, rfl⟩, hfounds, ?_⟩
    rw [← Works.mergeAll_append, Works.mergeAll_congr hmem]
  · rintro ⟨_, founds, ⟨now, hnow, rfl⟩, hfounds, rfl⟩
    obtain ⟨made, hmade, hmem⟩ := exists_atOnce_of_later hnow hfounds
    refine ⟨made, hmade, ?_⟩
    rw [← Works.mergeAll_append, Works.mergeAll_congr hmem]

/-- A plan that works out everything at once is processed just if one that works out only
deletions is, and all that it leaves for later can be caught up on.  Then the first comes
to the works of the second with an update of every document found later, and leaves
nothing for later itself. -/
theorem process_atOnce_iff {ds : Declarations} (hcompile : Mapping.compile schema ds = .ok mapping)
    {e e' : Engine schema} (hreach : Engine.Reached schema ds settings e)
    (hreach' : Engine.Reached schema ds settings e') (store : ObjectStore schema)
    (events : List (ObjectId × Event)) :
    ((∃ outcome, (((recorded .atOnce events).process store).run.run e).1 = .ok outcome) ↔
      ∃ (first : Outcome) (e₁ : Engine schema) (founds : List EntitySet),
        ((recorded .deletesAtOnce events).process store).run.run e' = (.ok first, e₁) ∧
        ((first.catchUp store).run.run e₁).1 = .ok founds) ∧
    ∀ (outcome first : Outcome) (e₁ : Engine schema) (founds : List EntitySet),
      (((recorded .atOnce events).process store).run.run e).1 = .ok outcome →
      ((recorded .deletesAtOnce events).process store).run.run e' = (.ok first, e₁) →
      ((first.catchUp store).run.run e₁).1 = .ok founds →
      outcome.works = founds.foldl Works.mergeUpdates first.works ∧
      (∀ r a, ⟨r, a⟩ ∈ outcome.works.inOrder ↔
        Works.IsStrongest (first.works.inOrder ++ founds.flatMap updates) r a) ∧
      (outcome.works.inOrder.Pairwise fun w w' => compare w.reference w'.reference = .lt) ∧
      outcome.postponed = [] := by
  obtain ⟨_, hall, -⟩ := answers_process (recorded .atOnce events) store e
    (Engine.reliable_of_reached hcompile hreach)
  obtain ⟨e₁, hdeletes, hreliable⟩ := answers_process (recorded .deletesAtOnce events) store e'
    (Engine.reliable_of_reached hcompile hreach')
  have hcaught : ∀ outcome : Outcome, ((outcome.catchUp store).run.run e₁).1 =
      outcome.postponed.mapM (Postponed.answer mapping settings store) := by
    intro outcome
    obtain ⟨_, hrun, -⟩ :=
      Engine.Answers.mapM Postponed.answers_catchUp outcome.postponed e₁ hreliable
    exact congrArg (·.1) hrun
  rw [timing_recorded, changes_recorded .deletesAtOnce .atOnce] at hdeletes
  rw [hall, hdeletes, timing_recorded]
  simp only [foldlM_atOnce_eq_ok]
  constructor
  · constructor
    · rintro ⟨_, first, founds, hfirst, hfounds, rfl⟩
      exact ⟨first, e₁, founds, congrArg (·, e₁) hfirst, (hcaught _).trans hfounds⟩
    · rintro ⟨first, _, founds, hrun, hfounds⟩
      obtain ⟨hfirst, rfl⟩ := Prod.mk.inj hrun
      exact ⟨_, first, founds, hfirst, (hcaught _).symm.trans hfounds, rfl⟩
  · rintro _ first _ founds ⟨first', founds', hfirst', hfounds', rfl⟩ hrun hfounds
    obtain ⟨hfirst, rfl⟩ := Prod.mk.inj hrun
    cases hfirst.symm.trans hfirst'
    cases ((hcaught _).symm.trans hfounds).symm.trans hfounds'
    refine ⟨rfl, fun r a => ?_, Works.pairwise_inOrder _, rfl⟩
    rw [Works.foldl_mergeUpdates]
    exact Works.mem_inOrder_mergeAll_iff

/-- One person gets a new name and the other is deleted. -/
theorem process_atOnce_iff_couple :
    ∃ (outcome first : Outcome) (e₁ : Engine Sample.coupleSchema) (founds : List EntitySet),
      (((recorded .atOnce [(1, .update (some Sample.newName)), (2, .delete)]).process
        Sample.couple).run.run Sample.coupleEngine).1 = .ok outcome ∧
      ((recorded .deletesAtOnce [(1, .update (some Sample.newName)), (2, .delete)]).process
        Sample.couple).run.run Sample.coupleEngine = (.ok first, e₁) ∧
      ((first.catchUp Sample.couple).run.run e₁).1 = .ok founds ∧
      outcome.works = founds.foldl Works.mergeUpdates first.works ∧ outcome.postponed = [] := by
  have hprocessed : (((recorded .atOnce [(1, .update (some Sample.newName)), (2, .delete)]).process
      Sample.couple).run.run Sample.coupleEngine).1.isOk = true := by
    decide +kernel
  have hstart : Engine.Reached Sample.coupleSchema Sample.spouses.mapping {} Sample.coupleEngine :=
    .start (Except.eq_ok_value _)
  obtain ⟨hiff, hworks⟩ := process_atOnce_iff Sample.compile_couple hstart hstart Sample.couple
    [(1, .update (some Sample.newName)), (2, .delete)]
  obtain ⟨first, e₁, founds, hfirst, hfounds⟩ := hiff.mp ⟨_, Except.eq_ok_value hprocessed⟩
  obtain ⟨heq, -, -, hnone⟩ := hworks _ _ _ _ (Except.eq_ok_value hprocessed) hfirst hfounds
  exact ⟨_, first, e₁, founds, Except.eq_ok_value hprocessed, hfirst, hfounds, heq, hnone⟩

end Plan

end IndexSync
