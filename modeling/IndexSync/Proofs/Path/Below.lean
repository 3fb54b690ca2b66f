import IndexSync.Proofs.Path.Names
import IndexSync.Proofs.Path.Written

/-!
# Paths below other paths

What is written behind a path and a dot is read where that path leads.

- `Path.elaborateSteps_append_eq_ok_iff` — parts in front of others are typed for the sake of
  the objects that these start from; by induction on the parts in front.
- `elaborateText_dot_eq_ok_iff` — so with texts.
-/

namespace IndexSync

variable {m : Schema}

namespace Path

theorem ne_nil_of_elaborateSteps {goal : PathGoal} {owner : TypeName} {parts : List PathPart}
    {steps : List TypedStep} (h : elaborateSteps m goal owner parts = .ok steps)
    (hne : parts ≠ []) : steps ≠ [] := by
  rintro rfl
  have hproperties := properties_of_elaborateSteps h
  exact hne (List.map_eq_nil_iff.mp hproperties.symm)

/-- A path goes on from the objects that its first step comes to. -/
theorem elaborateSteps_cons_of_ne_nil {goal : PathGoal} {owner : TypeName} {part : PathPart}
    {rest : List PathPart} {steps : List TypedStep} (hrest : rest ≠ []) :
    elaborateSteps m goal owner (part :: rest) = .ok steps ↔
      ∃ typed target steps', elaborateStep m owner true part = .ok typed ∧
        typed.element = .object target ∧ elaborateSteps m goal target rest = .ok steps' ∧
        steps = typed :: steps' := by
  rw [elaborateSteps_cons_eq_ok_iff]
  simp [hrest]

/-- A single part that is to lead to objects is typed as if the path went on. -/
theorem elaborateSteps_objects_singleton {owner : TypeName} {part : PathPart}
    {steps : List TypedStep} :
    elaborateSteps m .objects owner [part] = .ok steps ↔
      ∃ typed, elaborateStep m owner true part = .ok typed ∧
        typed.element = .object (endOf owner [typed]) ∧ steps = [typed] := by
  rw [elaborateSteps_cons_eq_ok_iff]
  simp only [ne_eq, not_true_eq_false, false_and, exists_false, or_false, true_and, decide_true,
    forall_const]
  apply exists_congr
  intro typed
  apply and_congr_right
  intro _
  apply and_congr_left
  intro _
  cases htarget : typed.element <;> simp [endOf, htarget, PropertyType.target?]

theorem elaborateSteps_append_eq_ok_iff {goal : PathGoal} {owner : TypeName}
    {parts rest : List PathPart} {steps : List TypedStep} (hparts : parts ≠ [])
    (hrest : rest ≠ []) :
    elaborateSteps m goal owner (parts ++ rest) = .ok steps ↔
      ∃ front back, elaborateSteps m .objects owner parts = .ok front ∧
        elaborateSteps m goal (endOf owner front) rest = .ok back ∧ steps = front ++ back := by
  induction parts generalizing owner steps with
  | nil => exact absurd rfl hparts
  | cons part parts ih =>
      have hmore : parts ++ rest ≠ [] := List.append_ne_nil_of_right_ne_nil _ hrest
      rw [List.cons_append, elaborateSteps_cons_of_ne_nil hmore]
      by_cases hlast : parts = []
      · subst hlast
        simp only [elaborateSteps_objects_singleton]
        constructor
        · rintro ⟨typed, target, back, htyped, htarget, hback, rfl⟩
          have hend : endOf owner [typed] = target := by
            simp [endOf, htarget, PropertyType.target?]
          rw [← hend] at htarget hback
          exact ⟨[typed], back, ⟨typed, htyped, htarget, rfl⟩, hback, rfl⟩
        · rintro ⟨_, back, ⟨typed, htyped, htarget, rfl⟩, hback, rfl⟩
          exact ⟨typed, _, back, htyped, htarget, hback, rfl⟩
      · have hend : ∀ {target : TypeName} {typed : TypedStep} {front : List TypedStep},
            elaborateSteps m .objects target parts = .ok front →
            endOf owner (typed :: front) = endOf target front := fun hfront =>
          endOf_cons_of_ne_nil (ne_nil_of_elaborateSteps hfront hlast)
            (target?_isSome_of_elaborateSteps hfront)
        simp only [elaborateSteps_cons_of_ne_nil hlast, ih hlast]
        constructor
        · rintro ⟨typed, target, _, htyped, htarget, ⟨front, back, hfront, hback, rfl⟩, rfl⟩
          rw [← hend hfront] at hback
          exact ⟨typed :: front, back, ⟨typed, target, front, htyped, htarget, hfront, rfl⟩, hback,
            rfl⟩
        · rintro ⟨_, back, ⟨typed, target, front, htyped, htarget, hfront, rfl⟩, hback, rfl⟩
          rw [hend hfront] at hback
          exact ⟨typed, target, front ++ back, htyped, htarget, ⟨front, back, hfront, hback, rfl⟩,
            rfl⟩

end Path

/-- A path behind another one that leads to objects is a path of its own, read on these. -/
theorem elaborateText_dot_eq_ok_iff {goal : PathGoal} {root : TypeName} {place path : String}
    {front steps : List TypedStep} (hplace : elaborateText m root place .objects = .ok front) :
    elaborateText m root (place ++ "." ++ path) goal = .ok steps ↔
      ∃ back, elaborateText m (endOf root front) path goal = .ok back ∧ steps = front ++ back := by
  obtain ⟨outer, houter, hfront⟩ := elaborateText_eq_ok_iff.mp hplace
  rw [parsePath_eq_ok_iff] at houter
  have hne := (Path.parse_eq_ok_iff.mp houter).1.nonempty
  simp only [elaborateText_eq_ok_iff, parsePath_eq_ok_iff]
  constructor
  · rintro ⟨whole, hwhole, hsteps⟩
    obtain ⟨inner, hinner, hparts⟩ := Path.exists_parse_of_below houter hwhole
    have hne' := (Path.parse_eq_ok_iff.mp hinner).1.nonempty
    rw [Path.elaborate, hparts, Path.elaborateSteps_append_eq_ok_iff hne hne'] at hsteps
    obtain ⟨front', back, hfront', hback, rfl⟩ := hsteps
    cases hfront.symm.trans hfront'
    exact ⟨back, ⟨inner, hinner, hback⟩, rfl⟩
  · rintro ⟨back, ⟨inner, hinner, hback⟩, rfl⟩
    have hne' := (Path.parse_eq_ok_iff.mp hinner).1.nonempty
    refine ⟨_, Path.parse_below houter hinner, ?_⟩
    exact (Path.elaborateSteps_append_eq_ok_iff hne hne').mpr ⟨front, back, hfront, hback, rfl⟩

theorem endOf_append_of_elaborateText {root type : TypeName} {path : String}
    {front back : List TypedStep} (h : elaborateText m type path .objects = .ok back) :
    endOf root (front ++ back) = endOf type back := by
  obtain ⟨inner, hinner, hback⟩ := elaborateText_eq_ok_iff.mp h
  have hne := (Path.parse_eq_ok_iff.mp (parsePath_eq_ok_iff.mp hinner)).1.nonempty
  exact endOf_append_of_ne_nil (Path.ne_nil_of_elaborateSteps hback hne)
    (target?_isSome_of_elaborateText h)

end IndexSync
