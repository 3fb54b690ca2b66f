import IndexSync.Path.Parser
import IndexSync.Proofs.File.PropertyTypes
import IndexSync.Proofs.Success

/-!
# Written paths

A text is read as a path if it is the written form of that path, and in no other way.

- `PathPart.Plain`, `Path.Plain` — the paths that can be written down: at least one part,
  and names of name characters.
- `takePart_eq_ok`, `takeParts_eq_ok` — what each reader takes off the front of a text is the
  written form of what it gives.
- `takePart_render`, `takeParts_dotted` — and it takes all of it, if nothing follows that could
  belong to it as well.
- `parse_eq_ok_iff` — so with whole texts.
- `parse_below`, `exists_parse_of_below` — a path that is written behind another one.
-/

namespace IndexSync

open Text

/-- The names in the part can be written. -/
structure PathPart.Plain (part : PathPart) : Prop where
  property : IsName part.property
  cast : ∀ type ∈ part.cast, IsName type

/-- The path can be written: it has parts, and the names in them can be written. -/
structure Path.Plain (path : Path) : Prop where
  nonempty : path.parts ≠ []
  parts : ∀ part ∈ path.parts, part.Plain

namespace Path

variable {s rest : List Char}

/-! ## Names -/

theorem takeName_eq_ok {missing : PathFault} {name : String}
    (h : takeName missing s = .ok (name, rest)) : IsName name ∧ s = name.toList ++ rest := by
  unfold takeName at h
  dsimp only at h
  split at h
  · cases h
  · rename_i hne
    obtain ⟨hname, hrest⟩ := Prod.mk.inj (Except.ok.inj h)
    subst hname hrest
    refine ⟨⟨?_, ?_⟩, ?_⟩
    · rw [String.toList_ofList]
      exact fun hnil => hne (List.isEmpty_iff.mpr hnil)
    · rw [String.toList_ofList]
      exact List.all_takeWhile
    · rw [String.toList_ofList]
      exact List.takeWhile_append_dropWhile.symm

theorem takeName_name (missing : PathFault) {name : String} (h : IsName name)
    (hrest : ∀ c ∈ rest.head?, isNameChar c = false) :
    takeName missing (name.toList ++ rest) = .ok (name, rest) := by
  obtain ⟨htake, hdrop⟩ := h.span hrest
  simp only [takeName, htake, hdrop, List.isEmpty_iff, h.nonempty, if_false,
    String.ofList_toList]

/-! ## Extractors -/

theorem isName_word (e : Extractor) : IsName e.word := by
  cases e <;> decide +kernel

theorem toList_renderExtractor (e : Extractor) :
    (PathPart.renderExtractor (some e)).toList = '[' :: (e.word.toList ++ [']']) := by
  rw [PathPart.renderExtractor, String.toList_append, String.toList_append]
  rfl

theorem takeExtractor_eq_ok {e? : Option Extractor} (h : takeExtractor s = .ok (e?, rest)) :
    '[' :: s = (PathPart.renderExtractor e?).toList ++ rest := by
  unfold takeExtractor at h
  split at h
  · cases h
    rfl
  · split at h
    · cases h
    · rename_i word after hword
      obtain ⟨-, rfl⟩ := takeName_eq_ok hword
      split at h
      · cases h
      · rename_i e he
        have hspelled : word = e.word := Extractor.ofWord?_eq_some_iff.mp he
        split at h
        · cases h
          rw [toList_renderExtractor, hspelled]
          simp
        · cases h

theorem takeExtractor_render (e? : Option Extractor) (rest : List Char) :
    ∃ s, (PathPart.renderExtractor e?).toList ++ rest = '[' :: s ∧
      takeExtractor s = .ok (e?, rest) := by
  cases e? with
  | none => exact ⟨']' :: rest, rfl, rfl⟩
  | some e =>
      refine ⟨e.word.toList ++ ']' :: rest, ?_, ?_⟩
      · rw [toList_renderExtractor]
        simp
      · have hname : takeName .extractorExpected (e.word.toList ++ ']' :: rest) =
            .ok (e.word, ']' :: rest) :=
          takeName_name _ (isName_word e) (by rintro c ⟨⟩; decide +kernel)
        have hfirst : ∀ after, e.word.toList ++ ']' :: rest ≠ ']' :: after := by
          intro after heq
          cases e <;> cases heq
        rw [takeExtractor]
        · simp only [hname, Extractor.ofWord?_word]
        · exact hfirst

theorem takeExtractors_eq_ok {bound : Nat} {found es : List (Option Extractor)}
    (h : takeExtractors bound found s = .ok (es, rest)) :
    ∃ more, es = found.reverse ++ more ∧
      s = (String.join (more.map PathPart.renderExtractor)).toList ++ rest := by
  induction bound generalizing found s with
  | zero =>
      cases h
      exact ⟨[], by simp, rfl⟩
  | succ bound ih =>
      unfold takeExtractors at h
      split at h
      · split at h
        · cases h
        · rename_i _ after hbound _ e? mid htake
          obtain rfl := Nat.succ.inj hbound
          obtain ⟨more, hes, hmid⟩ := ih h
          refine ⟨e? :: more, ?_, ?_⟩
          · rw [hes]
            simp
          · rw [takeExtractor_eq_ok htake, hmid]
            simp
      · cases h
        exact ⟨[], by simp, rfl⟩

theorem takeExtractors_cons (bound : Nat) (found : List (Option Extractor)) (e? : Option Extractor)
    (s : List Char) :
    takeExtractors (bound + 1) found ((PathPart.renderExtractor e?).toList ++ s) =
      takeExtractors bound (e? :: found) s := by
  obtain ⟨after, htext, htake⟩ := takeExtractor_render e? s
  rw [htext, takeExtractors]
  simp only [htake]

theorem takeExtractors_render {bound : Nat} (found : List (Option Extractor))
    {more : List (Option Extractor)} (hbound : more.length ≤ bound)
    (hrest : ∀ c ∈ rest.head?, c ≠ '[') :
    takeExtractors bound found
      ((String.join (more.map PathPart.renderExtractor)).toList ++ rest) =
        .ok (found.reverse ++ more, rest) := by
  induction more generalizing bound found with
  | nil =>
      show takeExtractors bound found rest = _
      rw [List.append_nil]
      unfold takeExtractors
      split
      · exact absurd rfl (hrest '[' rfl)
      · rfl
  | cons e? more ih =>
      obtain ⟨bound, rfl⟩ : ∃ b, bound = b + 1 :=
        Nat.exists_eq_add_one_of_ne_zero (by simp at hbound; omega)
      have hmore : more.length ≤ bound := by simpa using hbound
      rw [List.map_cons, String.join_cons, String.toList_append, List.append_assoc,
        takeExtractors_cons, ih (e? :: found) hmore]
      simp

/-! ## Casts -/

theorem toList_renderCast (type : TypeName) (rest : List Char) :
    (PathPart.renderCast (some type)).toList ++ rest = '<' :: (type.toList ++ '>' :: rest) := by
  simp [PathPart.renderCast]

theorem takeCast_eq_ok {cast : Option TypeName} (h : takeCast s = .ok (cast, rest)) :
    (∀ type ∈ cast, IsName type) ∧ s = (PathPart.renderCast cast).toList ++ rest := by
  unfold takeCast at h
  split at h
  · split at h
    · cases h
    · rename_i type after htype
      cases h
      obtain ⟨hname, rfl⟩ := takeName_eq_ok htype
      refine ⟨?_, ?_⟩
      · rintro _ ⟨⟩
        exact hname
      · simp [PathPart.renderCast]
    · cases h
  · cases h
    exact ⟨nofun, rfl⟩

theorem takeCast_some {type : TypeName} (h : IsName type) (rest : List Char) :
    takeCast ((PathPart.renderCast (some type)).toList ++ rest) = .ok (some type, rest) := by
  have hname : takeName .typeExpected (type.toList ++ '>' :: rest) = .ok (type, '>' :: rest) :=
    takeName_name _ h (by rintro c ⟨⟩; decide +kernel)
  rw [toList_renderCast, takeCast]
  simp only [hname]

theorem takeCast_render {cast : Option TypeName} (h : ∀ type ∈ cast, IsName type)
    (hrest : ∀ c ∈ rest.head?, c ≠ '<') :
    takeCast ((PathPart.renderCast cast).toList ++ rest) = .ok (cast, rest) := by
  cases cast with
  | none =>
      show takeCast rest = _
      unfold takeCast
      split
      · exact absurd rfl (hrest '<' rfl)
      · rfl
  | some type => exact takeCast_some (h type rfl) rest

/-! ## Parts -/

theorem takePart_eq_ok {part : PathPart} (h : takePart s = .ok (part, rest)) :
    part.Plain ∧ s = part.render.toList ++ rest := by
  obtain ⟨⟨property, s₁⟩, hproperty, h⟩ := Except.bind_eq_ok.mp h
  obtain ⟨⟨extractors, s₂⟩, hextractors, h⟩ := Except.bind_eq_ok.mp h
  obtain ⟨⟨cast, s₃⟩, hcast, h⟩ := Except.bind_eq_ok.mp h
  cases Except.pure_eq_ok.mp h
  obtain ⟨hname, rfl⟩ := takeName_eq_ok hproperty
  obtain ⟨more, rfl, rfl⟩ := takeExtractors_eq_ok hextractors
  obtain ⟨htype, rfl⟩ := takeCast_eq_ok hcast
  refine ⟨⟨hname, htype⟩, ?_⟩
  simp [PathPart.render]

/-- What may follow a part: nothing, or the dot in front of the next one. -/
def Ends (rest : List Char) : Prop :=
  ∀ c ∈ rest.head?, c = '.'

theorem Ends.ne (h : Ends rest) {c : Char} (hc : c ≠ '.') : ∀ c' ∈ rest.head?, c' ≠ c := by
  intro c' hc' heq
  exact hc (heq ▸ h c' hc')

/-- What follows a name in a part is no name character. -/
theorem not_isNameChar_head (extractors : List (Option Extractor)) (cast : Option TypeName)
    (hrest : Ends rest) :
    ∀ c ∈ ((String.join (extractors.map PathPart.renderExtractor)).toList ++
      ((PathPart.renderCast cast).toList ++ rest)).head?, isNameChar c = false := by
  intro c hc
  have hmarks : c = '[' ∨ c = '<' ∨ c = '.' := by
    cases extractors with
    | cons e? extractors =>
        obtain ⟨after, htext, -⟩ := takeExtractor_render e?
          ((String.join (extractors.map PathPart.renderExtractor)).toList ++
            ((PathPart.renderCast cast).toList ++ rest))
        rw [List.map_cons, String.join_cons, String.toList_append, List.append_assoc, htext] at hc
        exact .inl (Option.some.inj hc).symm
    | nil =>
        cases cast with
        | some type =>
            have hfirst : c ∈ ((PathPart.renderCast (some type)).toList ++ rest).head? := hc
            rw [toList_renderCast] at hfirst
            exact .inr (.inl (Option.some.inj hfirst).symm)
        | none => exact .inr (.inr (hrest c hc))
  rcases hmarks with rfl | rfl | rfl <;> decide +kernel

theorem length_renderExtractor_pos (e? : Option Extractor) :
    0 < (PathPart.renderExtractor e?).toList.length := by
  cases e? with
  | none => decide
  | some e =>
      rw [toList_renderExtractor]
      exact Nat.succ_pos _

/-- Brackets and all, extractors take as many characters as there are extractors. -/
theorem length_le_length_join (extractors : List (Option Extractor)) :
    extractors.length ≤ (String.join (extractors.map PathPart.renderExtractor)).toList.length := by
  induction extractors with
  | nil => exact Nat.zero_le _
  | cons e? extractors ih =>
      have hpos := length_renderExtractor_pos e?
      rw [List.map_cons, String.join_cons, String.toList_append, List.length_append,
        List.length_cons]
      omega

/-- Behind a name and extractors, reading a part comes to the cast. -/
theorem takePart_of_takeName {property : String} {extractors : List (Option Extractor)}
    (hproperty : takeName .propertyExpected (property.toList ++
        ((String.join (extractors.map PathPart.renderExtractor)).toList ++ s)) =
      .ok (property, (String.join (extractors.map PathPart.renderExtractor)).toList ++ s))
    (hs : ∀ c ∈ s.head?, c ≠ '[') :
    takePart (property.toList ++
        ((String.join (extractors.map PathPart.renderExtractor)).toList ++ s)) = do
      let (cast, rest) ← takeCast s
      return ({ property, extractors, cast }, rest) := by
  have hlength : extractors.length ≤
      ((String.join (extractors.map PathPart.renderExtractor)).toList ++ s).length := by
    rw [List.length_append]
    exact Nat.le_add_right_of_le (length_le_length_join extractors)
  have hextractors := takeExtractors_render [] hlength hs
  rw [takePart, hproperty]
  show takeExtractors _ [] _ >>= _ = _
  rw [hextractors]
  rfl

theorem takePart_render {part : PathPart} (h : part.Plain) (hrest : Ends rest) :
    takePart (part.render.toList ++ rest) = .ok (part, rest) := by
  obtain ⟨property, extractors, cast⟩ := part
  have htext : (PathPart.render ⟨property, extractors, cast⟩).toList ++ rest =
      property.toList ++ ((String.join (extractors.map PathPart.renderExtractor)).toList ++
        ((PathPart.renderCast cast).toList ++ rest)) := by
    simp [PathPart.render]
  have hproperty := takeName_name .propertyExpected h.property
    (not_isNameChar_head extractors cast hrest)
  have hbracket : ∀ c ∈ ((PathPart.renderCast cast).toList ++ rest).head?, c ≠ '[' := by
    cases cast with
    | none => exact hrest.ne (by decide)
    | some type =>
        rw [toList_renderCast]
        rintro c ⟨⟩
        decide
  rw [htext, takePart_of_takeName hproperty hbracket, takeCast_render h.cast (hrest.ne (by decide))]
  rfl

/-! ## Whole texts -/

theorem dotted_singleton (text : String) : dotted [text] = text :=
  String.intercalate_singleton

theorem toList_dotted_cons (text : String) {texts : List String} (hne : texts ≠ []) :
    (dotted (text :: texts)).toList = text.toList ++ '.' :: (dotted texts).toList := by
  rw [dotted, String.intercalate_cons_of_ne_nil hne, String.toList_append, String.toList_append,
    List.append_assoc]
  rfl

theorem takeParts_eq_ok {bound : Nat} {found parts : List PathPart}
    (h : takeParts bound found s = .ok parts) :
    ∃ more, more ≠ [] ∧ parts = found.reverse ++ more ∧ (∀ part ∈ more, part.Plain) ∧
      s = (dotted (more.map (·.render))).toList := by
  induction bound generalizing found s with
  | zero => cases h
  | succ bound ih =>
      unfold takeParts at h
      split at h
      · cases h
      · rename_i part hpart
        cases h
        obtain ⟨hplain, rfl⟩ := takePart_eq_ok hpart
        refine ⟨[part], List.cons_ne_nil _ _, by simp, List.forall_mem_singleton.mpr hplain, ?_⟩
        rw [List.map_singleton, dotted_singleton, List.append_nil]
      · rename_i part after hpart
        obtain ⟨more, hne, rfl, hmore, rfl⟩ := ih h
        obtain ⟨hplain, rfl⟩ := takePart_eq_ok hpart
        refine ⟨part :: more, List.cons_ne_nil _ _, by simp,
          List.forall_mem_cons.mpr ⟨hplain, hmore⟩, ?_⟩
        rw [List.map_cons, toList_dotted_cons _ (by simpa using hne)]
      · cases h

theorem takeParts_part_dot (bound : Nat) (found : List PathPart) {part : PathPart}
    (h : part.Plain) (s : List Char) :
    takeParts (bound + 1) found (part.render.toList ++ '.' :: s) =
      takeParts bound (part :: found) s := by
  have hdot : Ends ('.' :: s) := by
    rintro c ⟨⟩
    rfl
  rw [takeParts, takePart_render h hdot]
  rfl

theorem takeParts_part (bound : Nat) (found : List PathPart) {part : PathPart} (h : part.Plain) :
    takeParts (bound + 1) found part.render.toList = .ok (found.reverse ++ [part]) := by
  have hpart : takePart (part.render.toList ++ []) = .ok (part, []) := takePart_render h nofun
  rw [List.append_nil] at hpart
  rw [takeParts, hpart]
  simp

/-- The parts that are written in front of a dot are read first. -/
theorem takeParts_dotted_dot (bound : Nat) (found : List PathPart) {parts : List PathPart}
    (hne : parts ≠ []) (h : ∀ part ∈ parts, part.Plain) (s : List Char) :
    takeParts (bound + parts.length) found ((dotted (parts.map (·.render))).toList ++ '.' :: s) =
      takeParts bound (parts.reverse ++ found) s := by
  induction parts generalizing found with
  | nil => exact absurd rfl hne
  | cons part rest ih =>
      obtain ⟨hpart, hrest⟩ := List.forall_mem_cons.mp h
      by_cases hlast : rest = []
      · subst hlast
        rw [List.map_singleton, dotted_singleton]
        exact takeParts_part_dot bound found hpart s
      · rw [List.map_cons, toList_dotted_cons _ (by simpa using hlast), List.append_assoc,
          List.cons_append, List.length_cons, ← Nat.add_assoc, takeParts_part_dot _ _ hpart,
          ih _ hlast hrest, List.reverse_cons, List.append_assoc]
        rfl

theorem takeParts_dotted {bound : Nat} (found : List PathPart) {parts : List PathPart}
    (hne : parts ≠ []) (h : ∀ part ∈ parts, part.Plain) (hbound : parts.length ≤ bound) :
    takeParts bound found (dotted (parts.map (·.render))).toList =
      .ok (found.reverse ++ parts) := by
  induction parts generalizing bound found with
  | nil => exact absurd rfl hne
  | cons part rest ih =>
      obtain ⟨hpart, hrest⟩ := List.forall_mem_cons.mp h
      obtain ⟨bound, rfl⟩ : ∃ b, bound = b + 1 :=
        Nat.exists_eq_add_one_of_ne_zero (Nat.ne_zero_of_lt hbound)
      by_cases hlast : rest = []
      · subst hlast
        rw [List.map_singleton, dotted_singleton]
        exact takeParts_part bound found hpart
      · have hshorter : rest.length ≤ bound := Nat.le_of_succ_le_succ hbound
        rw [List.map_cons, toList_dotted_cons _ (by simpa using hlast),
          takeParts_part_dot _ _ hpart, ih _ hlast hrest hshorter, List.reverse_cons,
          List.append_assoc]
        rfl

/-- Each part takes a character at least. -/
theorem length_le_length_dotted {parts : List PathPart} (h : ∀ part ∈ parts, part.Plain) :
    parts.length ≤ (dotted (parts.map (·.render))).toList.length := by
  induction parts with
  | nil => exact Nat.zero_le _
  | cons part rest ih =>
      obtain ⟨hpart, hrest⟩ := List.forall_mem_cons.mp h
      have hpos : 0 < part.render.toList.length := by
        have hname := List.length_pos_iff.mpr hpart.property.nonempty
        simp only [PathPart.render, String.toList_append, List.length_append]
        omega
      by_cases hlast : rest = []
      · subst hlast
        rw [List.map_singleton, dotted_singleton]
        exact hpos
      · have hshorter := ih hrest
        rw [List.map_cons, toList_dotted_cons _ (by simpa using hlast), List.length_append,
          List.length_cons, List.length_cons]
        omega

/-- A text is read as the path whose written form it is, and as no other. -/
theorem parse_eq_ok_iff {text : String} {path : Path} :
    parse text = .ok path ↔ path.Plain ∧ text = path.render := by
  constructor
  · intro h
    unfold parse at h
    dsimp only at h
    split at h
    · rename_i parts hparts
      cases h
      obtain ⟨more, hne, rfl, hplain, htext⟩ := takeParts_eq_ok hparts
      exact ⟨⟨hne, hplain⟩, String.toList_inj.mp htext⟩
    · cases h
  · rintro ⟨⟨hne, hplain⟩, rfl⟩
    have hbound := Nat.le_succ_of_le (length_le_length_dotted hplain)
    have hparts := takeParts_dotted [] hne hplain hbound
    unfold parse render
    dsimp only
    rw [hparts]
    rfl

/-- What is written behind a path and a dot is a path of its own. -/
theorem exists_parse_of_below {text rest : String} {path whole : Path}
    (htext : parse text = .ok path) (h : parse (text ++ "." ++ rest) = .ok whole) :
    ∃ path', parse rest = .ok path' ∧ whole.parts = path.parts ++ path'.parts := by
  obtain ⟨⟨hne, hplain⟩, rfl⟩ := parse_eq_ok_iff.mp htext
  unfold parse at h
  dsimp only at h
  split at h
  · rename_i parts hparts
    cases h
    have hsplit : (path.render ++ "." ++ rest).toList =
        (dotted (path.parts.map (·.render))).toList ++ '.' :: rest.toList := by
      simp [render]
    have hlong := length_le_length_dotted hplain
    obtain ⟨bound, hbound⟩ :
        ∃ b, (path.render ++ "." ++ rest).toList.length + 1 = b + path.parts.length := by
      refine ⟨(path.render ++ "." ++ rest).toList.length + 1 - path.parts.length, ?_⟩
      rw [hsplit, List.length_append]
      omega
    rw [hbound, hsplit, takeParts_dotted_dot bound [] hne hplain] at hparts
    obtain ⟨more, hne', rfl, hplain', hrest⟩ := takeParts_eq_ok hparts
    refine ⟨{ parts := more }, ?_, by simp⟩
    exact parse_eq_ok_iff.mpr ⟨⟨hne', hplain'⟩, String.toList_inj.mp hrest⟩
  · cases h

theorem parse_below {text rest : String} {path path' : Path} (htext : parse text = .ok path)
    (hrest : parse rest = .ok path') :
    parse (text ++ "." ++ rest) = .ok { parts := path.parts ++ path'.parts } := by
  obtain ⟨⟨hne, hplain⟩, rfl⟩ := parse_eq_ok_iff.mp htext
  obtain ⟨⟨hne', hplain'⟩, rfl⟩ := parse_eq_ok_iff.mp hrest
  refine parse_eq_ok_iff.mpr ⟨⟨by simp [hne], ?_⟩, ?_⟩
  · intro part hpart
    exact (List.mem_append.mp hpart).elim (hplain part) (hplain' part)
  · simp only [render, dotted, List.map_append]
    exact (String.intercalate_append_of_ne_nil (by simpa using hne) (by simpa using hne')).symm

end Path

end IndexSync
