import IndexSync.Proofs.Path.Grammar

/-!
# Faults in paths

Where reading fails, everything in front of the fault is right.

- `Grammar.Begins` — what a text of a rule begins with.
- `Halts` — a reader stops behind what it has taken, whatever comes after the next character.
- `halts_takeExtractor`, `halts_takeExtractors`, `halts_takeCast`, `halts_takePart`,
  `halts_takeParts` — each reader stops where what it has taken still begins a text of its rule.
- `exists_completion_of_error` — the offset of an error, and what stands on either side of it.
-/

namespace IndexSync

open Text
open scoped Computability

/-- The word that is at fault, if it is a word. -/
def PathFault.culprit : PathFault → String
  | unknownExtractor word => word
  | _ => ""

namespace Path

namespace Grammar

/-- The text can be gone on with to a text of the rule. -/
def Begins (l : Language Char) (s : List Char) : Prop :=
  ∃ more, s ++ more ∈ l

variable {l l' : Language Char} {s front : List Char}

theorem Begins.mul_right (h : Begins l s) (h' : ∃ w, w ∈ l') : Begins (l * l') s := by
  obtain ⟨more, hmore⟩ := h
  obtain ⟨w, hw⟩ := h'
  exact ⟨more ++ w, Language.mem_mul.mpr ⟨s ++ more, hmore, w, hw, List.append_assoc ..⟩⟩

theorem Begins.mul_left (hfront : front ∈ l) (h : Begins l' s) : Begins (l * l') (front ++ s) := by
  obtain ⟨more, hmore⟩ := h
  exact ⟨more, Language.mem_mul.mpr ⟨front, hfront, s ++ more, hmore,
    (List.append_assoc ..).symm⟩⟩

theorem Begins.of_kstar (h : Begins l s) : Begins l∗ s := by
  obtain ⟨more, hmore⟩ := h
  exact ⟨more, Language.mem_kstar.mpr ⟨[s ++ more], (List.append_nil _).symm,
    List.forall_mem_singleton.mpr hmore⟩⟩

theorem Begins.kstar_cons (hfront : front ∈ l) (h : Begins l∗ s) : Begins l∗ (front ++ s) := by
  obtain ⟨more, hmore⟩ := h
  obtain ⟨pieces, heq, hpieces⟩ := Language.mem_kstar.mp hmore
  refine ⟨more, Language.mem_kstar.mpr ⟨front :: pieces, ?_, ?_⟩⟩
  · rw [List.append_assoc, heq, List.flatten_cons]
  · exact List.forall_mem_cons.mpr ⟨hfront, hpieces⟩

end Grammar

open Grammar (Begins)

/-- The reader has taken `before` when it stops, and it stops there in the same way whatever
comes behind the next character. -/
structure Halts {α : Type} (take : List Char → Except Stop α) (s : List Char) (stop : Stop)
    (before after : List Char) : Prop where
  text : s = before ++ (stop.1.culprit.toList ++ after)
  rest : stop.2 = stop.1.culprit.toList ++ after
  fails : ∀ after', after'.head? = after.head? →
    take (before ++ (stop.1.culprit.toList ++ after')) =
      .error (stop.1, stop.1.culprit.toList ++ after')

variable {s rest rest' : List Char} {stop : Stop}

theorem head?_append_congr {a b : List Char} (front : List Char) (h : a.head? = b.head?) :
    (front ++ a).head? = (front ++ b).head? := by
  rw [List.head?_append, List.head?_append, h]

/-! ## Names -/

theorem takeName_eq_error_iff {missing : PathFault} :
    takeName missing s = .error stop ↔
      stop = (missing, s) ∧ ∀ c ∈ s.head?, isNameChar c = false := by
  have hempty : (s.takeWhile isNameChar).isEmpty = true ↔
      ∀ c ∈ s.head?, isNameChar c = false := by
    cases s with
    | nil => exact ⟨fun _ => nofun, fun _ => rfl⟩
    | cons c s => cases hc : isNameChar c <;> simp [hc]
  unfold takeName
  dsimp only
  split
  · rename_i hnone
    constructor
    · rintro ⟨⟩
      exact ⟨rfl, hempty.mp hnone⟩
    · rintro ⟨rfl, -⟩
      rfl
  · rename_i hsome
    constructor
    · nofun
    · rintro ⟨-, hhead⟩
      exact absurd (hempty.mpr hhead) hsome

theorem not_isNameChar_of_takeName {missing : PathFault} {name : String}
    (h : takeName missing s = .ok (name, rest)) : ∀ c ∈ rest.head?, isNameChar c = false := by
  unfold takeName at h
  dsimp only at h
  split at h
  · cases h
  · cases h
    intro c hc
    by_contra hname
    rw [Bool.not_eq_false] at hname
    have hfirst := List.head?_dropWhile_not isNameChar s
    rw [Option.mem_def.mp hc] at hfirst
    simp [hname] at hfirst

theorem takeName_congr {missing : PathFault} {name : String}
    (h : takeName missing s = .ok (name, rest)) (hhead : rest'.head? = rest.head?) :
    takeName missing (name.toList ++ rest') = .ok (name, rest') := by
  refine takeName_name missing (takeName_eq_ok h).1 ?_
  rw [hhead]
  exact not_isNameChar_of_takeName h

/-! ## Extractors -/

/-- In front of a closing bracket there is no name. -/
theorem ne_close_of_takeName {word : String}
    (h : takeName .extractorExpected s = .ok (word, rest)) : ∀ after, s ≠ ']' :: after := by
  rintro after rfl
  have hnone : takeName .extractorExpected (']' :: after) =
      .error (.extractorExpected, ']' :: after) :=
    takeName_eq_error_iff.mpr ⟨rfl, by rintro c ⟨⟩; decide +kernel⟩
  cases h.symm.trans hnone

theorem takeExtractor_missing (hclose : ∀ c ∈ s.head?, c ≠ ']')
    (h : takeName .extractorExpected s = .error stop) : takeExtractor s = .error stop := by
  rw [takeExtractor]
  · rw [h]
  · rintro after rfl
    exact hclose ']' rfl rfl

theorem takeExtractor_unknown {word : String}
    (h : takeName .extractorExpected s = .ok (word, rest)) (hword : Extractor.ofWord? word = none) :
    takeExtractor s = .error (.unknownExtractor word, s) := by
  rw [takeExtractor]
  · simp only [h, hword]
  · exact ne_close_of_takeName h

theorem takeExtractor_known {e : Extractor}
    (h : takeName .extractorExpected s = .ok (e.word, rest)) :
    (∃ after, rest = ']' :: after ∧ takeExtractor s = .ok (some e, after)) ∨
      (∀ c ∈ rest.head?, c ≠ ']') ∧ takeExtractor s = .error (.bracketExpected, rest) := by
  rw [takeExtractor]
  · simp only [h, Extractor.ofWord?_word]
    split
    · exact .inl ⟨_, rfl, rfl⟩
    · rename_i hopen
      refine .inr ⟨?_, rfl⟩
      rintro c hc rfl
      obtain ⟨after, rfl⟩ := List.head?_eq_some_iff.mp hc
      exact hopen after rfl
  · exact ne_close_of_takeName h

theorem halts_takeExtractor (h : takeExtractor s = .error stop) :
    ∃ before after, Halts takeExtractor s stop before after ∧
      Begins Grammar.brackets ('[' :: before) := by
  have hempty : Begins Grammar.brackets ['['] :=
    ⟨[']'], Grammar.mem_brackets_iff.mpr ⟨none, rfl⟩⟩
  cases hname : takeName .extractorExpected s with
  | error stop' =>
      have hclose : ∀ c ∈ s.head?, c ≠ ']' := by
        rintro c hc rfl
        obtain ⟨after, rfl⟩ := List.head?_eq_some_iff.mp hc
        cases h
      cases h.symm.trans (takeExtractor_missing hclose hname)
      obtain ⟨rfl, hfirst⟩ := takeName_eq_error_iff.mp hname
      refine ⟨[], s, ⟨rfl, rfl, fun s' hhead => ?_⟩, hempty⟩
      rw [← hhead] at hclose hfirst
      exact takeExtractor_missing hclose (takeName_eq_error_iff.mpr ⟨rfl, hfirst⟩)
  | ok taken =>
      obtain ⟨word, rest⟩ := taken
      obtain ⟨-, rfl⟩ := takeName_eq_ok hname
      cases he : Extractor.ofWord? word with
      | none =>
          cases h.symm.trans (takeExtractor_unknown hname he)
          refine ⟨[], rest, ⟨rfl, rfl, fun rest' hhead => ?_⟩, hempty⟩
          exact takeExtractor_unknown (takeName_congr hname hhead) he
      | some e =>
          obtain rfl := Extractor.ofWord?_eq_some_iff.mp he
          rcases takeExtractor_known hname with ⟨after, -, hok⟩ | ⟨hopen, herror⟩
          · cases h.symm.trans hok
          · cases h.symm.trans herror
            refine ⟨e.word.toList, rest, ⟨rfl, rfl, fun rest' hhead => ?_⟩, [']'], ?_⟩
            · rcases takeExtractor_known (takeName_congr hname hhead) with
                ⟨after, rfl, -⟩ | ⟨-, herror'⟩
              · exact absurd rfl (hopen ']' hhead.symm)
              · exact herror'
            · exact Grammar.mem_brackets_iff.mpr ⟨some e, (toList_renderExtractor e).symm⟩

theorem halts_takeExtractors {bound : Nat} {found : List (Option Extractor)}
    (h : takeExtractors bound found s = .error stop) :
    ∃ before after, (∀ bound', before.length ≤ bound' →
        Halts (takeExtractors bound' found) s stop before after) ∧
      Begins Grammar.brackets∗ before := by
  induction bound generalizing found s with
  | zero => cases h
  | succ bound ih =>
      unfold takeExtractors at h
      split at h
      · split at h
        · rename_i htake
          cases h
          obtain ⟨before, after, hhalts, hbegins⟩ := halts_takeExtractor htake
          refine ⟨'[' :: before, after, fun bound' hbound => ?_, hbegins.of_kstar⟩
          obtain ⟨bound', rfl⟩ := Nat.exists_eq_add_one_of_ne_zero (Nat.ne_zero_of_lt hbound)
          refine ⟨congrArg _ hhalts.text, hhalts.rest, fun after' hhead => ?_⟩
          rw [List.cons_append, takeExtractors]
          simp only [hhalts.fails after' hhead]
        · rename_i _ rest hbound _ e? mid htake
          obtain rfl := Nat.succ.inj hbound
          obtain ⟨before, after, hhalts, hbegins⟩ := ih h
          have hfront : (PathPart.renderExtractor e?).toList ∈ Grammar.brackets :=
            Grammar.mem_brackets_iff.mpr ⟨e?, rfl⟩
          refine ⟨(PathPart.renderExtractor e?).toList ++ before, after, fun bound' hbound => ?_,
            hbegins.kstar_cons hfront⟩
          have hpos := length_renderExtractor_pos e?
          rw [List.length_append] at hbound
          obtain ⟨bound', rfl⟩ : ∃ b, bound' = b + 1 :=
            Nat.exists_eq_add_one_of_ne_zero (by omega)
          have hhalts := hhalts bound' (by omega)
          refine ⟨?_, hhalts.rest, fun after' hhead => ?_⟩
          · rw [takeExtractor_eq_ok htake, hhalts.text, List.append_assoc]
          · rw [List.append_assoc, takeExtractors_cons, hhalts.fails after' hhead]
      · cases h

/-- Reading extractors ends where no bracket comes next, if enough of them may be read. -/
theorem ne_open_of_takeExtractors {bound : Nat} {found es : List (Option Extractor)}
    (h : takeExtractors bound found s = .ok (es, rest)) (hbound : s.length ≤ bound) :
    ∀ c ∈ rest.head?, c ≠ '[' := by
  induction bound generalizing found s with
  | zero =>
      cases h
      rw [List.eq_nil_of_length_eq_zero (Nat.le_zero.mp hbound)]
      nofun
  | succ bound ih =>
      unfold takeExtractors at h
      split at h
      · split at h
        · cases h
        · rename_i _ after heq _ e? mid htake
          obtain rfl := Nat.succ.inj heq
          refine ih h ?_
          have hlength := congrArg List.length (takeExtractor_eq_ok htake)
          have hpos := length_renderExtractor_pos e?
          simp only [List.length_cons, List.length_append] at hlength hbound
          omega
      · rename_i hclosed
        cases h
        rintro c hc rfl
        obtain ⟨after, rfl⟩ := List.head?_eq_some_iff.mp hc
        exact hclosed bound after rfl rfl

/-! ## Casts -/

theorem halts_takeCast (h : takeCast s = .error stop) :
    ∃ before after, before.head? = some '<' ∧ Halts takeCast s stop before after ∧
      Begins (1 + Grammar.cast) before := by
  have hcast : ∀ type : TypeName, IsName type →
      '<' :: (type.toList ++ ['>']) ∈ 1 + Grammar.cast := fun _ htype =>
    .inr (Grammar.mem_between_iff.mpr ⟨_, Grammar.mem_name_iff.mpr ⟨_, htype, rfl⟩, rfl⟩)
  unfold takeCast at h
  split at h
  · rename_i s
    split at h
    · rename_i hname
      cases h
      obtain ⟨rfl, hfirst⟩ := takeName_eq_error_iff.mp hname
      refine ⟨['<'], s, rfl, ⟨rfl, rfl, fun s' hhead => ?_⟩, ['T', '>'], ?_⟩
      · rw [← hhead] at hfirst
        have hname' : takeName .typeExpected s' = .error (.typeExpected, s') :=
          takeName_eq_error_iff.mpr ⟨rfl, hfirst⟩
        show takeCast ('<' :: s') = _
        simp only [takeCast, hname']
        rfl
      · exact hcast "T" (by decide +kernel)
    · cases h
    · rename_i type rest hopen hname
      cases h
      obtain ⟨htype, rfl⟩ := takeName_eq_ok hname
      refine ⟨'<' :: type.toList, rest, rfl, ⟨rfl, rfl, fun rest' hhead => ?_⟩, ['>'],
        hcast _ htype⟩
      show takeCast ('<' :: (type.toList ++ rest')) = _
      simp only [takeCast, takeName_congr hname hhead]
      split
      · rename_i heq
        cases heq
      · rename_i after heq
        cases heq
        obtain ⟨after', rfl⟩ := List.head?_eq_some_iff.mp hhead.symm
        exact absurd rfl (hopen after')
      · rename_i heq
        cases heq
        rfl
  · cases h

/-- Without a cast, none comes next. -/
theorem ne_angle_of_takeCast (h : takeCast s = .ok (none, rest)) : ∀ c ∈ rest.head?, c ≠ '<' := by
  unfold takeCast at h
  split at h
  · split at h <;> cases h
  · rename_i hopen
    cases h
    rintro c hc rfl
    obtain ⟨after, rfl⟩ := List.head?_eq_some_iff.mp hc
    exact hopen after rfl

theorem takeCast_congr {cast : Option TypeName} (h : takeCast s = .ok (cast, rest))
    (hhead : rest'.head? = rest.head?) :
    takeCast ((PathPart.renderCast cast).toList ++ rest') = .ok (cast, rest') := by
  cases cast with
  | some type => exact takeCast_some ((takeCast_eq_ok h).1 type rfl) rest'
  | none =>
      refine takeCast_render nofun ?_
      rw [hhead]
      exact ne_angle_of_takeCast h

/-! ## Parts -/

/-- What a part is read as depends on what comes behind it only in the next character. -/
theorem takePart_congr {part : PathPart} (h : takePart s = .ok (part, rest))
    (hhead : rest'.head? = rest.head?) :
    takePart (part.render.toList ++ rest') = .ok (part, rest') := by
  obtain ⟨⟨property, s₁⟩, hproperty, h⟩ := Except.bind_eq_ok.mp h
  obtain ⟨⟨extractors, s₂⟩, hextractors, h⟩ := Except.bind_eq_ok.mp h
  obtain ⟨⟨cast, s₃⟩, hcast, h⟩ := Except.bind_eq_ok.mp h
  cases Except.pure_eq_ok.mp h
  have hopen := ne_open_of_takeExtractors hextractors (Nat.le_refl _)
  obtain ⟨_, rfl, rfl⟩ := takeExtractors_eq_ok hextractors
  obtain ⟨-, rfl⟩ := takeCast_eq_ok hcast
  have hnext := head?_append_congr (PathPart.renderCast cast).toList hhead
  have hproperty' := takeName_congr hproperty (head?_append_congr
    (String.join (extractors.map PathPart.renderExtractor)).toList hnext)
  rw [← hnext] at hopen
  rw [PathPart.render, String.toList_append, String.toList_append, List.append_assoc,
    List.append_assoc, takePart_of_takeName hproperty' hopen, takeCast_congr hcast hhead]
  rfl

theorem halts_takePart (h : takePart s = .error stop) :
    ∃ before after, Halts takePart s stop before after ∧ Begins Grammar.part before := by
  have hnoCast : ∃ w, w ∈ 1 + Grammar.cast := ⟨[], .inl rfl⟩
  have hnoBrackets : ∃ w, w ∈ Grammar.brackets∗ := ⟨[], Language.nil_mem_kstar _⟩
  rcases Except.bind_eq_error.mp h with hproperty | ⟨⟨property, s₁⟩, hproperty, hbehind⟩
  · obtain ⟨rfl, hfirst⟩ := takeName_eq_error_iff.mp hproperty
    have hname : Begins Grammar.name [] :=
      ⟨['a'], Grammar.mem_name_iff.mpr ⟨"a", by decide +kernel, rfl⟩⟩
    refine ⟨[], s, ⟨rfl, rfl, fun s' hhead => ?_⟩, (hname.mul_right hnoBrackets).mul_right hnoCast⟩
    rw [← hhead] at hfirst
    exact Except.bind_eq_error.mpr (.inl (takeName_eq_error_iff.mpr ⟨rfl, hfirst⟩))
  obtain ⟨hname, rfl⟩ := takeName_eq_ok hproperty
  have hfront : property.toList ∈ Grammar.name := Grammar.mem_name_iff.mpr ⟨_, hname, rfl⟩
  rcases Except.bind_eq_error.mp hbehind with hextractors | ⟨⟨extractors, s₂⟩, hextractors, hlast⟩
  · obtain ⟨before, after, hhalts, hbegins⟩ := halts_takeExtractors hextractors
    obtain ⟨htext, hrest, -⟩ := hhalts _ (Nat.le_refl _)
    refine ⟨property.toList ++ before, after, ⟨?_, hrest, fun after' hhead => ?_⟩,
      (hbegins.mul_left hfront).mul_right hnoCast⟩
    · rw [htext, List.append_assoc]
    · have hproperty' : takeName .propertyExpected (property.toList ++
          (before ++ (stop.1.culprit.toList ++ after'))) =
          .ok (property, before ++ (stop.1.culprit.toList ++ after')) := by
        refine takeName_congr hproperty ?_
        rw [htext]
        exact head?_append_congr before (head?_append_congr _ hhead)
      have hlength : before.length ≤ (before ++ (stop.1.culprit.toList ++ after')).length := by
        rw [List.length_append]
        exact Nat.le_add_right _ _
      rw [List.append_assoc]
      exact Except.bind_eq_error.mpr (.inr ⟨_, hproperty', Except.bind_eq_error.mpr
        (.inl ((hhalts _ hlength).fails after' hhead))⟩)
  obtain ⟨_, rfl, rfl⟩ := takeExtractors_eq_ok hextractors
  rcases Except.bind_eq_error.mp hlast with hcast | ⟨⟨cast, s₃⟩, -, hend⟩
  · obtain ⟨before, after, hopen, ⟨htext, hrest, hfails⟩, hbegins⟩ := halts_takeCast hcast
    have hmiddle : (String.join (extractors.map PathPart.renderExtractor)).toList ∈
        Grammar.brackets∗ := Grammar.mem_marks_iff.mpr ⟨extractors, rfl⟩
    refine ⟨property.toList ++
        ((String.join (extractors.map PathPart.renderExtractor)).toList ++ before), after,
      ⟨?_, hrest, fun after' hhead => ?_⟩, ?_⟩
    · rw [htext, List.append_assoc, List.append_assoc]
    · have hnext := head?_append_congr before (head?_append_congr stop.1.culprit.toList hhead)
      have hproperty' : takeName .propertyExpected (property.toList ++
          ((String.join (extractors.map PathPart.renderExtractor)).toList ++
            (before ++ (stop.1.culprit.toList ++ after')))) =
          .ok (property, (String.join (extractors.map PathPart.renderExtractor)).toList ++
            (before ++ (stop.1.culprit.toList ++ after'))) := by
        refine takeName_congr hproperty ?_
        rw [htext]
        exact head?_append_congr _ hnext
      have hnoBracket : ∀ c ∈ (before ++ (stop.1.culprit.toList ++ after')).head?, c ≠ '[' := by
        rw [List.head?_append, hopen]
        rintro c ⟨⟩
        decide
      rw [List.append_assoc, List.append_assoc, takePart_of_takeName hproperty' hnoBracket]
      exact Except.bind_eq_error.mpr (.inl (hfails after' hhead))
    · rw [← List.append_assoc]
      exact hbegins.mul_left (Language.mem_mul.mpr ⟨_, hfront, _, hmiddle, rfl⟩)
  · cases hend

/-! ## Whole texts -/

theorem mem_path_of_mem_part {front : List Char} (h : front ∈ Grammar.part) :
    front ∈ Grammar.path :=
  Language.mem_mul.mpr ⟨front, h, [], Language.nil_mem_kstar _, List.append_nil _⟩

theorem mem_path_of_part_dot {front : List Char} (hfront : front ∈ Grammar.part)
    (h : s ∈ Grammar.path) : front ++ '.' :: s ∈ Grammar.path := by
  obtain ⟨part, hpart, rfl⟩ := Grammar.mem_part_iff.mp hfront
  obtain ⟨⟨parts⟩, ⟨hne, hparts⟩, rfl⟩ := Grammar.mem_path_iff.mp h
  refine Grammar.mem_path_iff.mpr ⟨{ parts := part :: parts },
    ⟨List.cons_ne_nil _ _, List.forall_mem_cons.mpr ⟨hpart, hparts⟩⟩, ?_⟩
  rw [render, render, List.map_cons, toList_dotted_cons _ (by simpa using hne)]

theorem halts_takeParts {bound : Nat} {found : List PathPart} (hbound : s.length < bound)
    (h : takeParts bound found s = .error stop) :
    ∃ before after, (∀ bound', before.length < bound' →
        Halts (takeParts bound' found) s stop before after) ∧
      Begins Grammar.path before := by
  induction bound generalizing found s with
  | zero => cases hbound
  | succ bound ih =>
      unfold takeParts at h
      split at h
      · rename_i hpart
        cases h
        obtain ⟨before, after, ⟨htext, hrest, hfails⟩, hbegins⟩ := halts_takePart hpart
        refine ⟨before, after, fun bound' hbound => ⟨htext, hrest, fun after' hhead => ?_⟩,
          hbegins.mul_right ⟨[], Language.nil_mem_kstar _⟩⟩
        obtain ⟨bound', rfl⟩ := Nat.exists_eq_add_one_of_ne_zero (Nat.ne_zero_of_lt hbound)
        simp only [takeParts, hfails after' hhead]
      · cases h
      · rename_i part rest hpart
        obtain ⟨hplain, rfl⟩ := takePart_eq_ok hpart
        have hfront : part.render.toList ∈ Grammar.part := Grammar.mem_part_iff.mpr ⟨_, hplain, rfl⟩
        rw [List.length_append, List.length_cons] at hbound
        obtain ⟨before, after, hhalts, more, hmore⟩ := ih (by omega) h
        refine ⟨part.render.toList ++ '.' :: before, after, fun bound' hbound => ?_, more, ?_⟩
        · rw [List.length_append, List.length_cons] at hbound
          obtain ⟨bound', rfl⟩ := Nat.exists_eq_add_one_of_ne_zero (Nat.ne_zero_of_lt hbound)
          obtain ⟨htext, hrest, hfails⟩ := hhalts bound' (by omega)
          refine ⟨?_, hrest, fun after' hhead => ?_⟩
          · rw [htext, List.append_assoc, List.cons_append]
          · rw [List.append_assoc, List.cons_append, takeParts_part_dot _ _ hplain,
              hfails after' hhead]
        · rw [List.append_assoc, List.cons_append]
          exact mem_path_of_part_dot hfront hmore
      · rename_i part rest hend hdot hpart
        cases h
        obtain ⟨hplain, rfl⟩ := takePart_eq_ok hpart
        refine ⟨part.render.toList, rest,
          fun bound' hbound => ⟨rfl, rfl, fun rest' hhead => ?_⟩, [], ?_⟩
        · obtain ⟨bound', rfl⟩ := Nat.exists_eq_add_one_of_ne_zero (Nat.ne_zero_of_lt hbound)
          show takeParts (bound' + 1) found (part.render.toList ++ rest') =
            .error (.dotExpected, rest')
          obtain ⟨c, rest, rfl⟩ := List.exists_cons_of_ne_nil hend
          obtain ⟨rest', rfl⟩ := List.head?_eq_some_iff.mp hhead
          have hc : c ≠ '.' := fun hc => hdot rest (congrArg (· :: rest) hc)
          simp only [takeParts, takePart_congr hpart hhead]
          split <;> simp_all
        · rw [List.append_nil]
          exact mem_path_of_mem_part (Grammar.mem_part_iff.mpr ⟨_, hplain, rfl⟩)

theorem utf8ByteSize_ofList (s : List Char) : (String.ofList s).utf8ByteSize = byteLength s := by
  induction s with
  | nil => rfl
  | cons c s ih =>
      rw [String.ofList_cons, String.utf8ByteSize_append, String.utf8ByteSize_singleton, ih]
      rfl

theorem byteLength_append (s s' : List Char) :
    byteLength (s ++ s') = byteLength s + byteLength s' := by
  rw [← utf8ByteSize_ofList, String.ofList_append, String.utf8ByteSize_append,
    utf8ByteSize_ofList, utf8ByteSize_ofList]

theorem parse_eq_error_iff {text : String} {e : PathError} :
    parse text = .error e ↔
      ∃ rest, takeParts (text.toList.length + 1) [] text.toList = .error (e.fault, rest) ∧
        e.offset = byteLength text.toList - byteLength rest := by
  obtain ⟨offset, fault⟩ := e
  unfold parse
  dsimp only
  split
  · rename_i hparts
    simp [hparts]
  · rename_i fault' rest hparts
    simp [hparts, eq_comm, and_comm]

/-- The offset of an error is a place between two characters of the text.  What stands in front
of it can be gone on with to a text that is read as a path; behind it stands the word that is at
fault, if a word is.  Of what comes then, the error depends on no more than the first character. -/
theorem exists_completion_of_error {text : String} {e : PathError} (h : parse text = .error e) :
    e.offset ≤ text.utf8ByteSize ∧ (⟨e.offset⟩ : String.Pos.Raw).IsValid text ∧
      ∃ before after, text = before ++ (e.fault.culprit ++ after) ∧
        before.utf8ByteSize = e.offset ∧
        (∃ more path, parse (before ++ more) = .ok path) ∧
        ∀ after', after'.toList.head? = after.toList.head? →
          parse (before ++ (e.fault.culprit ++ after')) = .error e := by
  obtain ⟨rest, hparts, hoffset⟩ := parse_eq_error_iff.mp h
  obtain ⟨before, after, hhalts, more, hmore⟩ := halts_takeParts (Nat.lt_succ_self _) hparts
  have hrest : rest = e.fault.culprit.toList ++ after := (hhalts _ (Nat.lt_succ_self _)).rest
  have htext : text.toList = before ++ rest := by
    rw [hrest]
    exact (hhalts _ (Nat.lt_succ_self _)).text
  have hsplit : text = String.ofList before ++ (e.fault.culprit ++ String.ofList after) := by
    rw [← String.toList_inj, htext, hrest]
    simp
  have hsize : (String.ofList before).utf8ByteSize = e.offset := by
    rw [hoffset, htext, byteLength_append, Nat.add_sub_cancel_right, utf8ByteSize_ofList]
  have hvalid : (⟨e.offset⟩ : String.Pos.Raw).IsValid text :=
    String.Pos.Raw.isValid_iff_exists_append.mpr ⟨_, _, hsplit, String.Pos.Raw.ext hsize.symm⟩
  refine ⟨?_, hvalid, _, _, hsplit, hsize, ?_, fun after' hhead => ?_⟩
  · rw [hsplit, String.utf8ByteSize_append, hsize]
    exact Nat.le_add_right _ _
  · obtain ⟨path, hplain, hpath⟩ := Grammar.mem_path_iff.mp hmore
    refine ⟨String.ofList more, path, parse_eq_ok_iff.mpr ⟨hplain, ?_⟩⟩
    rw [← String.toList_inj, ← hpath]
    simp
  · rw [String.toList_ofList] at hhead
    have htext' : (String.ofList before ++ (e.fault.culprit ++ after')).toList =
        before ++ (e.fault.culprit.toList ++ after'.toList) := by
      simp
    refine parse_eq_error_iff.mpr ⟨e.fault.culprit.toList ++ after'.toList, ?_, ?_⟩
    · rw [htext']
      have hlength :
          before.length ≤ (before ++ (e.fault.culprit.toList ++ after'.toList)).length := by
        rw [List.length_append]
        exact Nat.le_add_right _ _
      exact (hhalts _ (Nat.lt_succ_of_le hlength)).fails _ hhead
    · rw [htext', byteLength_append, Nat.add_sub_cancel_right, ← hsize, utf8ByteSize_ofList]

/-- A word that is no extractor, behind six characters of eight bytes. -/
theorem exists_completion_of_error_unknown :
    let text := "größe[bag].name"
    parse text = .error ⟨8, .unknownExtractor "bag"⟩ ∧ (⟨8⟩ : String.Pos.Raw).IsValid text ∧
      ∃ before after, text = before ++ ("bag" ++ after) ∧ before.utf8ByteSize = 8 ∧
        ∃ more path, parse (before ++ more) = .ok path := by
  intro text
  have herror : parse text = .error ⟨8, .unknownExtractor "bag"⟩ := by decide +kernel
  obtain ⟨-, hvalid, before, after, hsplit, hsize, hmore, -⟩ := exists_completion_of_error herror
  exact ⟨herror, hvalid, before, after, hsplit, hsize, hmore⟩

end Path

end IndexSync
