import IndexSync.Proofs.Change.Documents
import IndexSync.Proofs.Plan.Calls
import IndexSync.Proofs.Plan.Events

/-!
# Objects that are deleted last

What a plan does to the document of an object whose last addition or deletion is a
deletion.

- `Plan.delete_mem_works` — the document is deleted if the object was never added in the
  unit of work, and only then.  A plan forgets that an object existed before as soon as it
  is added again.
- `Plan.mem_works_of_cancelled` — of an object that was added first, nothing is left but
  the updates that changes of other objects call for.
-/

namespace IndexSync

/-- No two objects have the same reference. -/
def ObjectStore.DistinctReferences {schema : Schema} (store : ObjectStore schema) : Prop :=
  ∀ (x y : ObjectId) (r : EntityRef), store.reference x = .ok r → store.reference y = .ok r → x = y

namespace Sample

open Plan

/-! ## The couple -/

/-- The first person is deleted. -/
def removal : List (ObjectId × Event) := [(1, .delete)]

/-- The first person is deleted, added again and deleted again. -/
def returning : List (ObjectId × Event) := [(1, .delete), (1, .add), (1, .delete)]

/-- The first person is added and deleted; the other one changes. -/
def cancelling : List (ObjectId × Event) := [(1, .add), (1, .delete), (2, .update none)]

def removalOutcome : Outcome :=
  (((recorded .atOnce removal).process couple).run.run coupleEngine).1.value (by decide +kernel)

def returningOutcome : Outcome :=
  (((recorded .atOnce returning).process couple).run.run coupleEngine).1.value (by decide +kernel)

def cancellingOutcome : Outcome :=
  (((recorded .atOnce cancelling).process couple).run.run coupleEngine).1.value (by decide +kernel)

/-- The references of the two. -/
def personRef (number : Int) : EntityRef := { type := "Person", identity := .id (.integer number) }

theorem references_couple : (couple.reference 1).toOption = some (personRef 0) ∧
    (couple.reference 2).toOption = some (personRef 1) := by
  decide +kernel

theorem reference_one : couple.reference 1 = .ok (personRef 0) :=
  Except.eq_ok_of_toOption references_couple.1

theorem reference_two : couple.reference 2 = .ok (personRef 1) :=
  Except.eq_ok_of_toOption references_couple.2

theorem documented_one : Documented couple spouses.mapping 1 :=
  ⟨personPart, Engine.types_spouses ▸ List.mem_cons_self, rfl, Engine.isA_person (.inl rfl)⟩

theorem distinctReferences_couple : couple.DistinctReferences := by
  have hone_or_two : ∀ {x r}, couple.reference x = .ok r → x = 1 ∨ x = 2 := by
    intro x r h
    obtain ⟨type, htype, -⟩ := Except.bind_eq_ok.mp h
    exact Engine.eq_one_or_two htype
  intro x y r hx hy
  rcases hone_or_two hx with rfl | rfl <;> rcases hone_or_two hy with rfl | rfl
  · rfl
  · cases hx.symm.trans reference_one
    cases hy.symm.trans reference_two
  · cases hx.symm.trans reference_two
    cases hy.symm.trans reference_one
  · rfl

end Sample

namespace Plan

variable {schema : Schema} {ds : Declarations} {mapping : Mapping schema} {settings : Settings}
  {e : Engine schema} {store : ObjectStore schema} {timing : Timing}
  {events : List (ObjectId × Event)} {o : ObjectId} {r : EntityRef} {a : Action}
  {outcome : Outcome}

theorem mem_works_of_recorded (h : e.Reliable mapping settings)
    (hrun : (((recorded timing events).process store).run.run e).1 = .ok outcome) :
    ⟨r, a⟩ ∈ outcome.works.inOrder ↔
      Calls mapping settings timing store (recorded timing events).changes r a ∧
      ∀ b, Calls mapping settings timing store (recorded timing events).changes r b →
        b.strength ≤ a.strength := by
  simpa only [timing_recorded] using mem_works_of_process h hrun

/-- What calls for the document of a cancelled object is that it was found from a change. -/
theorem calls_of_cancelled (hdistinct : store.DistinctReferences)
    (hfate : fateOf (eventsOf o events) = some (.deleted true)) (href : store.reference o = .ok r) :
    Calls mapping settings timing store (recorded timing events).changes r a ↔
      a = .update ∧ ∃ x fate found, fateOf (eventsOf x events) = some fate ∧
        fate.postponed x timing = [] ∧ fate.answer mapping settings store x = .ok found ∧
        r ∈ found := by
  constructor
  · intro h
    cases h with
    | own hchange haction _ hx =>
        -- its own fate calls for nothing
        cases hdistinct _ _ _ hx href
        cases (mem_changes_recorded.mp hchange).symm.trans hfate
        cases haction
    | found hchange hnow hfound hr =>
        exact ⟨rfl, _, _, _, mem_changes_recorded.mp hchange, hnow, hfound, hr⟩
  · rintro ⟨rfl, x, fate, found, hx, hnow, hfound, hr⟩
    exact .found (mem_changes_recorded.mpr hx) hnow hfound hr

/-- The document of an object that was deleted last is deleted if no event added the
object, and kept if one did. -/
theorem delete_mem_works (hcompile : Mapping.compile schema ds = .ok mapping)
    (hreach : Engine.Reached schema ds settings e) (hdoc : Documented store ds o)
    (hlast : lastAddOrDelete (eventsOf o events) = some .delete)
    (hrun : (((recorded timing events).process store).run.run e).1 = .ok outcome) :
    (.add ∉ eventsOf o events →
      ∃ r, store.reference o = .ok r ∧ ⟨r, .delete⟩ ∈ outcome.works.inOrder) ∧
    (.add ∈ eventsOf o events → store.DistinctReferences →
      ∀ r, store.reference o = .ok r → ⟨r, .delete⟩ ∉ outcome.works.inOrder) := by
  have hreliable := Engine.reliable_of_reached hcompile hreach
  have hfate := fateOf_eq_deleted hlast
  constructor
  · intro hnever
    rw [decide_eq_false hnever] at hfate
    have hchange : (o, .deleted false) ∈ (recorded timing events).changes :=
      mem_changes_recorded.mpr hfate
    have hhas : mapping.HasDocument store o := (Mapping.hasDocument_iff hcompile).mpr hdoc
    obtain ⟨calls, hcalls⟩ := exists_callsFor_of_process hreliable hrun hchange
    obtain ⟨r, href⟩ := exists_reference_of_callsFor hcalls rfl hhas
    refine ⟨r, href, (mem_works_of_recorded hreliable hrun).mpr ?_⟩
    refine ⟨.own hchange rfl hhas href, fun b _ => ?_⟩
    -- nothing prevails over a deletion
    cases b <;> decide
  · intro hadded hdistinct r href hmem
    rw [decide_eq_true hadded] at hfate
    obtain ⟨hcall, -⟩ := (mem_works_of_recorded hreliable hrun).mp hmem
    obtain ⟨hupdate, -⟩ := (calls_of_cancelled hdistinct hfate href).mp hcall
    cases hupdate

theorem delete_mem_works_couple :
    Sample.couple.DistinctReferences ∧
    Documented Sample.couple Sample.spouses.mapping 1 ∧
    (∃ r, Sample.couple.reference 1 = .ok r ∧
      ⟨r, .delete⟩ ∈ Sample.removalOutcome.works.inOrder) ∧
    ∀ r, Sample.couple.reference 1 = .ok r →
      ⟨r, .delete⟩ ∉ Sample.returningOutcome.works.inOrder := by
  have hremoved : lastAddOrDelete (eventsOf 1 Sample.removal) = some .delete := rfl
  have hreturned : lastAddOrDelete (eventsOf 1 Sample.returning) = some .delete := rfl
  refine ⟨Sample.distinctReferences_couple, Sample.documented_one, ?_, ?_⟩
  · exact (delete_mem_works Sample.compile_couple (.start (Except.eq_ok_value _))
      Sample.documented_one hremoved (Except.eq_ok_value _)).1 (by decide)
  · exact (delete_mem_works Sample.compile_couple (.start (Except.eq_ok_value _))
      Sample.documented_one hreturned (Except.eq_ok_value _)).2 (by decide)
      Sample.distinctReferences_couple

/-- The first person existed before and is deleted last, and yet no document is deleted. -/
theorem works_returning_couple :
    (eventsOf 1 Sample.returning).head? ≠ some .add ∧
    lastAddOrDelete (eventsOf 1 Sample.returning) = some .delete ∧
    Documented Sample.couple Sample.spouses.mapping 1 ∧
    (((recorded .atOnce Sample.returning).process Sample.couple).run.run Sample.coupleEngine).1 =
      .ok Sample.returningOutcome ∧
    Sample.returningOutcome.works.inOrder = [] :=
  ⟨by decide, rfl, Sample.documented_one, Except.eq_ok_value _, by decide +kernel⟩

/-- The document of an object that was added first and deleted last is at most updated,
and that exactly if it is found from another change. -/
theorem mem_works_of_cancelled (hcompile : Mapping.compile schema ds = .ok mapping)
    (hreach : Engine.Reached schema ds settings e) (hdistinct : store.DistinctReferences)
    (hfirst : (eventsOf o events).head? = some .add)
    (hlast : lastAddOrDelete (eventsOf o events) = some .delete)
    (hrun : (((recorded .atOnce events).process store).run.run e).1 = .ok outcome)
    (href : store.reference o = .ok r) :
    ⟨r, a⟩ ∈ outcome.works.inOrder ↔ a = .update ∧ ∃ x ≠ o, ∃ fate found,
      fateOf (eventsOf x events) = some fate ∧
      ((fate.request store x).run.run e).1 = .ok found ∧ r ∈ found := by
  have hreliable := Engine.reliable_of_reached hcompile hreach
  have hadded : .add ∈ eventsOf o events := List.mem_of_head? hfirst
  have hfate : fateOf (eventsOf o events) = some (.deleted true) := by
    rw [fateOf_eq_deleted hlast, decide_eq_true hadded]
  have hanswer : ∀ x (fate : Fate), ((fate.request store x).run.run e).1 =
      fate.answer mapping settings store x := by
    intro x fate
    obtain ⟨e', hanswer, -⟩ := answers_request fate e hreliable
    rw [hanswer]
  rw [mem_works_of_recorded hreliable hrun, calls_of_cancelled hdistinct hfate href]
  constructor
  · rintro ⟨⟨rfl, x, fate, found, hx, -, hfound, hr⟩, -⟩
    refine ⟨rfl, x, ?_, fate, found, hx, (hanswer x fate).trans hfound, hr⟩
    -- the object itself finds nothing
    rintro rfl
    cases hx.symm.trans hfate
    cases hfound
    exact Std.ExtTreeSet.not_mem_empty hr
  · rintro ⟨rfl, x, -, fate, found, hx, hfound, hr⟩
    have hcall := (hanswer x fate).symm.trans hfound
    refine ⟨⟨rfl, x, fate, found, hx, fate.postponed_atOnce x, hcall, hr⟩, fun b hb => ?_⟩
    obtain ⟨rfl, -⟩ := (calls_of_cancelled hdistinct hfate href).mp hb
    exact Nat.le_refl _

theorem mem_works_of_cancelled_couple :
    Sample.couple.DistinctReferences ∧
    (eventsOf 1 Sample.cancelling).head? = some .add ∧
    lastAddOrDelete (eventsOf 1 Sample.cancelling) = some .delete ∧
    (⟨Sample.personRef 0, .update⟩ ∈ Sample.cancellingOutcome.works.inOrder ↔
      Action.update = .update ∧ ∃ x ≠ 1, ∃ fate found,
        fateOf (eventsOf x Sample.cancelling) = some fate ∧
        ((fate.request Sample.couple x).run.run Sample.coupleEngine).1 = .ok found ∧
        Sample.personRef 0 ∈ found) :=
  ⟨Sample.distinctReferences_couple, rfl, rfl,
    mem_works_of_cancelled Sample.compile_couple (.start (Except.eq_ok_value _))
      Sample.distinctReferences_couple rfl rfl (Except.eq_ok_value _) Sample.reference_one⟩

/-- The first person is added and deleted in one unit of work, and yet the document is
updated, since the other person shows it. -/
theorem works_cancelling_couple :
    (eventsOf 1 Sample.cancelling).head? = some .add ∧
    lastAddOrDelete (eventsOf 1 Sample.cancelling) = some .delete ∧
    Sample.couple.DistinctReferences ∧
    (((recorded .atOnce Sample.cancelling).process Sample.couple).run.run
      Sample.coupleEngine).1 = .ok Sample.cancellingOutcome ∧
    Sample.couple.reference 1 = .ok (Sample.personRef 0) ∧
    ⟨Sample.personRef 0, .update⟩ ∈ Sample.cancellingOutcome.works.inOrder :=
  ⟨rfl, rfl, Sample.distinctReferences_couple, Except.eq_ok_value _, Sample.reference_one,
    by decide +kernel⟩

end Plan

end IndexSync
