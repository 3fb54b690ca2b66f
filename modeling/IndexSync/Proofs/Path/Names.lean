import IndexSync.Path.Parser
import IndexSync.Proofs.Path.Elaborate

/-!
# Names in paths

Names hold no dots, so that names joined by dots can be told apart.

- `eq_of_dotted_eq` — the joined names determine the names.
- `Path.dotless_of_parse` — what is read from a text are such names, at least one.
- `Path.properties_of_elaborateSteps` — typing a path keeps its property names.
-/

namespace IndexSync

variable {m : Schema}

def Dotless (names : List String) : Prop :=
  ∀ name ∈ names, '.' ∉ name.toList

theorem splitOn_dotted {names : List String} (h : Dotless names) (hne : names ≠ []) :
    (dotted names).toList.splitOn '.' = names.map String.toList := by
  unfold dotted
  rw [String.toList_intercalate]
  apply List.splitOn_intercalate
  · intro chars hchars
    obtain ⟨name, hname, rfl⟩ := List.mem_map.mp hchars
    exact h name hname
  · simpa using hne

theorem eq_of_dotted_eq {names names' : List String} (h : Dotless names) (h' : Dotless names')
    (hne : names ≠ []) (hne' : names' ≠ []) (heq : dotted names = dotted names') :
    names = names' := by
  have hsplit : names.map String.toList = names'.map String.toList := by
    rw [← splitOn_dotted h hne, ← splitOn_dotted h' hne', heq]
  exact List.map_injective_iff.mpr (fun _ _ => String.toList_inj.mp) hsplit

namespace Path

theorem dot_not_mem_of_takeName {missing : PathFault} {s rest : List Char} {name : String}
    (h : takeName missing s = .ok (name, rest)) : '.' ∉ name.toList := by
  unfold takeName at h
  dsimp only at h
  split at h
  · cases h
  · cases h
    rw [String.toList_ofList]
    intro hmem
    have hname : Text.isNameChar '.' = true :=
      List.all_eq_true.mp List.all_takeWhile '.' hmem
    revert hname
    decide

theorem dot_not_mem_of_takePart {s rest : List Char} {part : PathPart}
    (h : takePart s = .ok (part, rest)) : '.' ∉ part.property.toList := by
  obtain ⟨⟨property, s₁⟩, hname, h⟩ := Except.bind_eq_ok.mp h
  obtain ⟨⟨extractors, s₂⟩, -, h⟩ := Except.bind_eq_ok.mp h
  obtain ⟨⟨cast, s₃⟩, -, h⟩ := Except.bind_eq_ok.mp h
  cases Except.pure_eq_ok.mp h
  exact dot_not_mem_of_takeName hname

theorem dotless_of_takeParts {bound : Nat} {found parts : List PathPart} {s : List Char}
    (hfound : Dotless (found.map (·.property))) (h : takeParts bound found s = .ok parts) :
    Dotless (parts.map (·.property)) ∧ parts ≠ [] := by
  induction bound generalizing found s with
  | zero => cases h
  | succ bound ih =>
      unfold takeParts at h
      cases hpart : takePart s with
      | error stop =>
          rw [hpart] at h
          cases h
      | ok taken =>
          obtain ⟨part, rest⟩ := taken
          rw [hpart] at h
          have hmore : Dotless ((part :: found).map (·.property)) :=
            List.forall_mem_cons.mpr ⟨dot_not_mem_of_takePart hpart, hfound⟩
          split at h
          · cases h
          · rename_i heq
            cases heq
            cases h
            refine ⟨?_, by simp⟩
            intro name hname
            rw [List.map_reverse, List.mem_reverse] at hname
            exact hmore name hname
          · rename_i heq
            cases heq
            exact ih hmore h
          · cases h

theorem dotless_of_parse {text : String} {path : Path} (h : parse text = .ok path) :
    Dotless (path.parts.map (·.property)) ∧ path.parts ≠ [] := by
  unfold parse at h
  dsimp only at h
  split at h
  · rename_i parts hparts
    cases h
    have hnone : Dotless (([] : List PathPart).map (·.property)) := List.forall_mem_nil _
    exact dotless_of_takeParts hnone hparts
  · cases h

theorem property_of_elaborateStep {owner : TypeName} {unwrapped : Bool} {part : PathPart}
    {step : TypedStep} (h : elaborateStep m owner unwrapped part = .ok step) :
    step.property = part.property := by
  obtain ⟨_, _, _, _, _, _, -, -, -, -, -, rfl⟩ := elaborateStep_eq_ok_iff.mp h
  rfl

theorem properties_of_elaborateSteps {goal : PathGoal} {owner : TypeName} {parts : List PathPart}
    {steps : List TypedStep} (h : elaborateSteps m goal owner parts = .ok steps) :
    steps.map (·.property) = parts.map (·.property) := by
  induction parts generalizing owner steps with
  | nil =>
      cases h
      rfl
  | cons part rest ih =>
      rcases elaborateSteps_cons_eq_ok_iff.mp h with
        ⟨typed, rfl, htyped, -, rfl⟩ | ⟨typed, target, steps', -, htyped, -, hsteps, rfl⟩
      · rw [List.map_cons, List.map_cons, property_of_elaborateStep htyped]
        rfl
      · rw [List.map_cons, List.map_cons, property_of_elaborateStep htyped, ih hsteps]

end Path

/-- An elaborated path reads properties without dots in their names. -/
theorem dotless_of_elaborateText {owner : TypeName} {text : String} {goal : PathGoal}
    {steps : List TypedStep} (h : elaborateText m owner text goal = .ok steps) :
    Dotless (steps.map (·.property)) := by
  obtain ⟨path, hpath, hsteps⟩ := elaborateText_eq_ok_iff.mp h
  rw [Path.properties_of_elaborateSteps hsteps]
  exact (Path.dotless_of_parse (parsePath_eq_ok_iff.mp hpath)).1

end IndexSync
