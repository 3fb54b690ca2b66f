import IndexSync.Proofs.Success

/-!
# Elaborated paths

What it takes for a path to be typed against the schema.

- `Path.openWritten_cons_eq_ok_iff`, `Path.elaborateStep_eq_ok_iff` — containers are opened one by
  one, by the extractors that their types allow.
- `Path.elaborateSteps_cons_eq_ok_iff` — a path is typed part by part, and goes on only
  from objects.
- `target?_isSome_of_elaborateText` — a path that is to lead to objects ends with a
  step that does.
-/

namespace IndexSync

variable {m : Schema}

namespace Path

/-- The next extractor, as written or as meant, opens the type it is applied to. -/
theorem openWritten_cons_eq_ok_iff {name : String} {e? : Option Extractor}
    {written : List (Option Extractor)} {type element : PropertyType} {es : List Extractor} :
    openWritten name type (e? :: written) = .ok (es, element) ↔
      ∃ e mid es', e?.or type.usualExtractor? = some e ∧ type.element? e = some mid ∧
        openWritten name mid written = .ok (es', element) ∧ es = e :: es' := by
  have hnext : ∀ {e : Extractor}, e?.or type.usualExtractor? = some e →
      openWritten name type (e? :: written) = openWritten name type (some e :: written) := by
    intro e he
    unfold openWritten
    cases e? with
    | some e' =>
        obtain rfl : e' = e := Option.some.inj he
        rfl
    | none =>
        have husual : type.usualExtractor? = some e := he
        simp only [husual]
  constructor
  · intro h
    cases he : e?.or type.usualExtractor? with
    | none =>
        obtain ⟨rfl, husual⟩ := Option.or_eq_none_iff.mp he
        rw [openWritten] at h
        simp only [husual] at h
        cases h
    | some e =>
        rw [hnext he, openWritten] at h
        obtain ⟨_, ⟨⟩, h⟩ := Except.bind_eq_ok.mp h
        dsimp only at h
        split at h
        · cases h
        · rename_i mid hmid
          obtain ⟨⟨es', element'⟩, hrest, h⟩ := Except.bind_eq_ok.mp h
          cases Except.pure_eq_ok.mp h
          exact ⟨e, mid, es', rfl, hmid, hrest, rfl⟩
  · rintro ⟨e, mid, es', he, hmid, hrest, rfl⟩
    rw [hnext he, openWritten]
    simp only [bind, Except.bind, hmid, hrest]
    rfl

/-- A part is typed by opening what its property holds, first as it is written and then, if
it is stepped through or narrowed, as usual, and narrowing the elements. -/
theorem elaborateStep_eq_ok_iff {owner : TypeName} {unwrapped : Bool} {part : PathPart}
    {step : TypedStep} :
    elaborateStep m owner unwrapped part = .ok step ↔
      ∃ p written opened implied inner element, m.property? owner part.property = some p ∧
        openWritten part.property p.type part.extractors = .ok (written, opened) ∧
        (implied, inner) =
          (if unwrapped || part.cast.isSome then openUsual opened else ([], opened)) ∧
        narrow m inner part.cast = .ok element ∧
        checkTarget m part.property element = .ok () ∧
        step = { owner, property := part.property, extractors := written ++ implied
                 cast := part.cast, element } := by
  unfold elaborateStep
  constructor
  · intro h
    split at h
    · cases h
    · rename_i p hp
      obtain ⟨⟨written, opened⟩, hwritten, h⟩ := Except.bind_eq_ok.mp h
      obtain ⟨element, hnarrow, h⟩ := Except.bind_eq_ok.mp h
      obtain ⟨⟨⟩, hcheck, h⟩ := Except.bind_eq_ok.mp h
      exact ⟨p, written, opened, _, _, element, hp, hwritten, rfl, hnarrow, hcheck,
        (Except.pure_eq_ok.mp h).symm⟩
  · rintro ⟨p, written, opened, implied, inner, element, hp, hwritten, hopening, hnarrow, hcheck,
      rfl⟩
    rw [hp]
    refine Except.bind_eq_ok.mpr ⟨_, hwritten, ?_⟩
    dsimp only
    rw [← hopening]
    exact Except.bind_eq_ok.mpr ⟨element, hnarrow, Except.bind_eq_ok.mpr ⟨(), hcheck, rfl⟩⟩

/-- A path is typed part by part: the last one for the sake of the goal, any other one for the
objects that the rest starts from. -/
theorem elaborateSteps_cons_eq_ok_iff {goal : PathGoal} {owner : TypeName} {part : PathPart}
    {rest : List PathPart} {steps : List TypedStep} :
    elaborateSteps m goal owner (part :: rest) = .ok steps ↔
      (∃ typed, rest = [] ∧ elaborateStep m owner (goal = .objects) part = .ok typed ∧
        (goal = .objects → typed.element.target?.isSome) ∧ steps = [typed]) ∨
      ∃ typed target steps', rest ≠ [] ∧ elaborateStep m owner true part = .ok typed ∧
        typed.element = .object target ∧ elaborateSteps m goal target rest = .ok steps' ∧
        steps = typed :: steps' := by
  constructor
  · intro h
    cases rest with
    | nil =>
        left
        obtain ⟨typed, htyped, h⟩ := Except.bind_eq_ok.mp h
        split at h
        · cases h
        · rename_i hgoal
          refine ⟨typed, rfl, htyped, fun hobjects => ?_, (Except.pure_eq_ok.mp h).symm⟩
          cases htarget : typed.element.target? with
          | none => exact absurd ⟨hobjects, by rw [htarget]; rfl⟩ hgoal
          | some target => rfl
    | cons next rest =>
        right
        obtain ⟨typed, htyped, h⟩ := Except.bind_eq_ok.mp h
        split at h
        · rename_i target htarget
          obtain ⟨steps', hsteps, h⟩ := Except.bind_eq_ok.mp h
          exact ⟨typed, target, steps', List.cons_ne_nil _ _, htyped, htarget, hsteps,
            (Except.pure_eq_ok.mp h).symm⟩
        · cases h
  · rintro (⟨typed, rfl, htyped, hgoal, rfl⟩ | ⟨typed, target, steps', hne, htyped, htarget,
      hsteps, rfl⟩)
    · refine Except.bind_eq_ok.mpr ⟨typed, htyped, ?_⟩
      rw [if_neg]
      · rfl
      · rintro ⟨hobjects, hnone⟩
        have hsome := hgoal hobjects
        rw [Option.isNone_iff_eq_none.mp hnone] at hsome
        cases hsome
    · obtain ⟨next, rest, rfl⟩ := List.exists_cons_of_ne_nil hne
      refine Except.bind_eq_ok.mpr ⟨typed, htyped, ?_⟩
      rw [htarget]
      exact Except.bind_eq_ok.mpr ⟨steps', hsteps, rfl⟩

theorem target?_isSome_of_elaborateSteps {parts : List PathPart} {owner : TypeName}
    {steps : List TypedStep} (h : elaborateSteps m .objects owner parts = .ok steps) :
    ∀ last ∈ steps.getLast?, last.element.target?.isSome := by
  induction parts generalizing owner steps with
  | nil =>
      cases h
      exact nofun
  | cons part rest ih =>
      rcases elaborateSteps_cons_eq_ok_iff.mp h with
        ⟨typed, -, -, hobjects, rfl⟩ | ⟨typed, target, steps', -, -, htarget, hsteps, rfl⟩
      · rintro last ⟨⟩
        exact hobjects rfl
      · intro last hlast
        cases steps' with
        | nil =>
            cases hlast
            show typed.element.target?.isSome = true
            rw [htarget]
            rfl
        | cons next steps' =>
            rw [List.getLast?_cons_cons] at hlast
            exact ih hsteps last hlast

end Path

theorem parsePath_eq_ok_iff {owner : TypeName} {text : String} {path : Path} :
    parsePath owner text = .ok path ↔ Path.parse text = .ok path := by
  unfold parsePath
  split <;> simp_all

theorem elaborateText_eq_ok_iff {owner : TypeName} {text : String} {goal : PathGoal}
    {steps : List TypedStep} :
    elaborateText m owner text goal = .ok steps ↔
      ∃ path, parsePath owner text = .ok path ∧ path.elaborate m owner goal = .ok steps := by
  rw [elaborateText, Except.bind_eq_ok]
  apply exists_congr
  intro path
  apply and_congr_right
  intro _
  split <;> simp_all

/-- What is in front of a path to objects makes no difference to where it ends. -/
theorem endOf_append_of_ne_nil {root owner : TypeName} {front back : List TypedStep}
    (hback : back ≠ []) (hlast : ∀ last ∈ back.getLast?, last.element.target?.isSome) :
    endOf root (front ++ back) = endOf owner back := by
  obtain ⟨before, last, rfl⟩ := (List.eq_nil_or_concat back).resolve_left hback
  obtain ⟨type, htype⟩ := Option.isSome_iff_exists.mp (hlast last (by simp))
  simp [endOf, List.getLast?_append, htype]

theorem endOf_cons_of_ne_nil {root owner : TypeName} {step : TypedStep} {rest : List TypedStep}
    (hrest : rest ≠ []) (hlast : ∀ last ∈ rest.getLast?, last.element.target?.isSome) :
    endOf root (step :: rest) = endOf owner rest := by
  show endOf root ([step] ++ rest) = endOf owner rest
  exact endOf_append_of_ne_nil hrest hlast

theorem target?_isSome_of_elaborateText {root : TypeName} {text : String} {steps : List TypedStep}
    (h : elaborateText m root text .objects = .ok steps) :
    ∀ last ∈ steps.getLast?, last.element.target?.isSome := by
  obtain ⟨path, -, hsteps⟩ := elaborateText_eq_ok_iff.mp h
  exact Path.target?_isSome_of_elaborateSteps hsteps

end IndexSync
