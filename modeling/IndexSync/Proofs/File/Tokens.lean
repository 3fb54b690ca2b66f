import Mathlib.Data.List.Chain
import IndexSync.Proofs.File.PropertyTypes

/-!
# The tokens of a text

A text is cut into names, as long as they can be, and single other characters; blanks separate.

- `Token`, `lex` — the tokens of a text.
- `Spaced` — tokens written in a row, with blanks in front of, behind and between them.
- `lex_cases` — what a text begins with, after the blanks.
- `spaced_lex`, `Spaced.lex_eq` — a text is its tokens with blanks in between; and tokens that
  stand apart are the tokens of any text they are written as.
- `lex_of_takeName`, `lex_of_eat?`, `exists_takeName_of_lex`, `exists_eat?_of_lex` — reading a
  name, or a character that comes next, takes one token.
-/

namespace IndexSync.PropertyType

open Text

/-- A name, or a character that is neither a blank nor part of a name. -/
inductive Token where
  | name (word : String)
  | mark (c : Char)
deriving DecidableEq

namespace Token

def chars : Token → List Char
  | name word => word.toList
  | mark c => [c]

/-- The token can be cut out of a text. -/
def Valid : Token → Prop
  | name word => IsName word
  | mark c => isNameChar c = false ∧ isBlank c = false

/-- Tokens of which one is no name are told apart without a blank in between. -/
def Apart : Token → Token → Prop
  | name _, name _ => False
  | _, _ => True

theorem Valid.not_isBlank {t : Token} (h : t.Valid) : ∀ c ∈ t.chars, isBlank c = false := by
  intro c hc
  cases t with
  | name word => exact not_isBlank_of_isNameChar (IsName.isNameChar h c hc)
  | mark d =>
      cases List.mem_singleton.mp hc
      exact h.2

end Token

open Token

/-- The name whose characters have been found, if any have. -/
def flush : List Char → List Token
  | [] => []
  | c :: word => [name (String.ofList (c :: word))]

/-- The tokens of a text behind the beginning of a name. -/
def lexFrom (word : List Char) : List Char → List Token
  | [] => flush word
  | c :: s =>
      if isNameChar c then lexFrom (word ++ [c]) s
      else if isBlank c then flush word ++ lexFrom [] s
      else flush word ++ mark c :: lexFrom [] s

/-- The tokens of a text. -/
def lex (s : List Char) : List Token :=
  lexFrom [] s

/-- The tokens in a row, with any number of blanks in front of, behind and between them. -/
inductive Spaced (blank : Char → Bool) : List Token → List Char → Prop
  | nil : Spaced blank [] []
  | blank {ts : List Token} {s : List Char} {c : Char} (hc : blank c = true)
      (h : Spaced blank ts s) : Spaced blank ts (c :: s)
  | token {ts : List Token} {s : List Char} (t : Token) (h : Spaced blank ts s) :
      Spaced blank (t :: ts) (t.chars ++ s)

variable {s rest : List Char} {ts ts' : List Token}

/-! ## What comes first -/

theorem flush_toList {word : String} (h : IsName word) : flush word.toList = [name word] := by
  obtain ⟨c, cs, hcons⟩ := List.exists_cons_of_ne_nil h.nonempty
  rw [hcons, flush, ← hcons, String.ofList_toList]

theorem lexFrom_append {word' : List Char} (h : ∀ c ∈ word', isNameChar c = true)
    (word s : List Char) : lexFrom word (word' ++ s) = lexFrom (word ++ word') s := by
  induction word' generalizing word with
  | nil => rw [List.append_nil, List.nil_append]
  | cons c word' ih =>
      obtain ⟨hc, hword'⟩ := List.forall_mem_cons.mp h
      rw [List.cons_append, lexFrom, if_pos hc, ih hword', List.append_assoc]
      rfl

/-- A name ends where something else follows. -/
theorem lexFrom_of_head (word : List Char) (h : ∀ c ∈ s.head?, isNameChar c = false) :
    lexFrom word s = flush word ++ lex s := by
  cases s with
  | nil => exact (List.append_nil _).symm
  | cons c s =>
      have hc : ¬isNameChar c = true := Bool.not_eq_true _ ▸ h c rfl
      rw [lex, lexFrom, lexFrom, if_neg hc, if_neg hc]
      split <;> rfl

theorem lex_blank {c : Char} (h : isBlank c = true) (s : List Char) : lex (c :: s) = lex s := by
  rw [lex, lexFrom, if_neg (by simp [isNameChar_eq_false_of_isBlank h]), if_pos h]
  rfl

theorem lex_mark {c : Char} (h : (mark c).Valid) (s : List Char) :
    lex (c :: s) = mark c :: lex s := by
  rw [lex, lexFrom, if_neg (by simp [h.1]), if_neg (by simp [h.2])]
  rfl

theorem lex_name {word : String} (h : IsName word) (hs : ∀ c ∈ s.head?, isNameChar c = false) :
    lex (word.toList ++ s) = name word :: lex s := by
  rw [lex, lexFrom_append h.isNameChar, List.nil_append, lexFrom_of_head _ hs, flush_toList h]
  rfl

theorem lex_trimStart (s : List Char) : lex (trimStart s) = lex s := by
  induction s with
  | nil => rfl
  | cons c s ih =>
      rw [trimStart, List.dropWhile_cons]
      split
      · rename_i hc
        rw [lex_blank hc]
        exact ih
      · rfl

/-- After the blanks the text ends, or a name comes, or a mark. -/
theorem lex_cases (s : List Char) :
    (trimStart s = [] ∧ lex s = []) ∨
    (∃ word rest, IsName word ∧ (∀ c ∈ rest.head?, isNameChar c = false) ∧
      trimStart s = word.toList ++ rest ∧ lex s = name word :: lex rest) ∨
    ∃ c rest, (mark c).Valid ∧ trimStart s = c :: rest ∧ lex s = mark c :: lex rest := by
  rw [← lex_trimStart s]
  have hfirst : ∀ c ∈ (trimStart s).head?, isBlank c = false := by
    intro c hc
    have hnot := List.head?_dropWhile_not isBlank s
    rw [show s.dropWhile isBlank = trimStart s from rfl, Option.mem_def.mp hc] at hnot
    exact hnot
  generalize trimStart s = s at hfirst
  cases s with
  | nil => exact .inl ⟨rfl, rfl⟩
  | cons c s =>
      cases hc : isNameChar c with
      | true =>
          have hword : IsName (String.ofList ((c :: s).takeWhile isNameChar)) := by
            refine ⟨?_, ?_⟩
            · simp [hc]
            · rw [String.toList_ofList]
              exact List.all_takeWhile
          have hsplit : c :: s = (String.ofList ((c :: s).takeWhile isNameChar)).toList ++
              (c :: s).dropWhile isNameChar := by
            rw [String.toList_ofList, List.takeWhile_append_dropWhile]
          have hrest : ∀ d ∈ ((c :: s).dropWhile isNameChar).head?, isNameChar d = false := by
            intro d hd
            have hnot := List.head?_dropWhile_not isNameChar (c :: s)
            rw [Option.mem_def.mp hd] at hnot
            exact hnot
          refine .inr (.inl ⟨_, _, hword, hrest, hsplit, ?_⟩)
          rw [← lex_name hword hrest, ← hsplit]
      | false =>
          have hmark : (mark c).Valid := ⟨hc, hfirst c rfl⟩
          exact .inr (.inr ⟨c, s, hmark, rfl, lex_mark hmark s⟩)

/-- The tokens behind the first ones are the tokens of a text of their own. -/
theorem exists_lex_of_append (h : lex s = ts ++ ts') : ∃ rest, lex rest = ts' := by
  induction ts generalizing s with
  | nil => exact ⟨s, h⟩
  | cons t ts ih =>
      rcases lex_cases s with ⟨-, hs⟩ | ⟨_, rest, -, -, -, hs⟩ | ⟨_, rest, -, -, hs⟩
      · cases hs.symm.trans h
      all_goals exact ih (List.cons.inj (hs.symm.trans h)).2

theorem length_lexFrom_le (word s : List Char) :
    (lexFrom word s).length ≤ word.length + s.length := by
  have hflush : ∀ word, (flush word).length ≤ word.length := by
    intro word
    cases word with
    | nil => exact Nat.le_refl _
    | cons => exact Nat.succ_pos _
  induction s generalizing word with
  | nil => exact hflush word
  | cons c s ih =>
      have hrest := ih []
      have hword := hflush word
      rw [List.length_nil] at hrest
      rw [lexFrom, List.length_cons]
      split
      · have hlonger := ih (word ++ [c])
        rw [List.length_append, List.length_singleton] at hlonger
        omega
      · split <;> simp only [List.length_append, List.length_cons] <;> omega

/-! ## Blanks -/

theorem Spaced.mono {blank blank' : Char → Bool} (hblank : ∀ c, blank c = true → blank' c = true)
    (h : Spaced blank ts s) : Spaced blank' ts s := by
  induction h with
  | nil => exact .nil
  | blank hc _ ih => exact .blank (hblank _ hc) ih
  | token t _ ih => exact .token t ih

theorem Spaced.append {blank : Char → Bool} {s' : List Char} (h : Spaced blank ts s)
    (h' : Spaced blank ts' s') : Spaced blank (ts ++ ts') (s ++ s') := by
  induction h with
  | nil => exact h'
  | blank hc _ ih => exact .blank hc ih
  | token t _ ih =>
      rw [List.append_assoc]
      exact .token t ih

theorem spaced_singleton {blank : Char → Bool} (t : Token) : Spaced blank [t] t.chars := by
  have h : Spaced blank [t] (t.chars ++ []) := .token t .nil
  rwa [List.append_nil] at h

/-- Without the blanks, nothing is left but the tokens. -/
theorem Spaced.filter_eq {blank : Char → Bool} (h : Spaced blank ts s)
    (hts : ∀ t ∈ ts, ∀ c ∈ t.chars, blank c = false) :
    s.filter (fun c => !blank c) = ts.flatMap chars := by
  induction h with
  | nil => rfl
  | blank hc _ ih => rw [List.filter_cons, hc, ← ih hts]; rfl
  | token t _ ih =>
      obtain ⟨ht, hrest⟩ := List.forall_mem_cons.mp hts
      rw [List.filter_append, List.flatMap_cons, ih hrest, List.filter_eq_self.mpr]
      intro c hc
      rw [ht c hc]
      rfl

theorem spaced_lexFrom (word s : List Char) :
    Spaced isBlank (lexFrom word s) (word ++ s) := by
  have hflush : ∀ word, Spaced isBlank (flush word) word := by
    intro word
    cases word with
    | nil => exact .nil
    | cons c word =>
        have hname : (name (String.ofList (c :: word))).chars = c :: word := String.toList_ofList
        conv_rhs => rw [← hname]
        exact spaced_singleton _
  induction s generalizing word with
  | nil => rw [List.append_nil]; exact hflush word
  | cons c s ih =>
      rw [lexFrom]
      split
      · simpa using ih (word ++ [c])
      · split
        · rename_i hc
          exact (hflush word).append (.blank hc (ih []))
        · exact (hflush word).append (.token (mark c) (ih []))

/-- A text is its tokens, with blanks in between. -/
theorem spaced_lex (s : List Char) : Spaced isBlank (lex s) s :=
  spaced_lexFrom [] s

/-- Where a name could not go on, no name character stands. -/
theorem Spaced.not_isNameChar {word : String} (h : Spaced isBlank ts s)
    (hvalid : ∀ t ∈ ts, t.Valid) (hapart : ∀ t ∈ ts.head?, Apart (name word) t) :
    ∀ c ∈ s.head?, isNameChar c = false := by
  cases h with
  | nil => nofun
  | blank hc _ =>
      rintro _ ⟨⟩
      exact isNameChar_eq_false_of_isBlank hc
  | token t _ =>
      cases t with
      | name => exact (hapart _ rfl).elim
      | mark c =>
          rintro _ ⟨⟩
          exact (hvalid _ List.mem_cons_self).1

/-- Tokens that stand apart are the tokens of every text they are written as. -/
theorem Spaced.lex_eq (h : Spaced isBlank ts s) (hvalid : ∀ t ∈ ts, t.Valid)
    (hapart : ts.IsChain Apart) : lex s = ts := by
  induction h with
  | nil => rfl
  | blank hc _ ih => rw [lex_blank hc, ih hvalid hapart]
  | token t hs ih =>
      obtain ⟨ht, hrest⟩ := List.forall_mem_cons.mp hvalid
      obtain ⟨hnext, hchain⟩ := List.isChain_cons.mp hapart
      cases t with
      | name word =>
          rw [chars, lex_name ht (hs.not_isNameChar hrest hnext), ih hrest hchain]
      | mark c => rw [chars, List.singleton_append, lex_mark ht, ih hrest hchain]

/-! ## Trimming -/

theorem lexFrom_append_blanks {gap : List Char} (h : ∀ c ∈ gap, isBlank c = true)
    (word s : List Char) : lexFrom word (s ++ gap) = lexFrom word s := by
  induction s generalizing word with
  | nil =>
      have hgap : lex gap = [] := by
        induction gap with
        | nil => rfl
        | cons c gap ih =>
            obtain ⟨hc, hgap⟩ := List.forall_mem_cons.mp h
            rw [lex_blank hc, ih hgap]
      have hhead : ∀ c ∈ gap.head?, isNameChar c = false := fun c hc =>
        isNameChar_eq_false_of_isBlank (h c (List.mem_of_mem_head? hc))
      rw [List.nil_append, lexFrom_of_head word hhead, hgap, List.append_nil]
      rfl
  | cons c s ih => rw [List.cons_append, lexFrom, lexFrom, ih, ih]

theorem lex_trim (s : List Char) : lex (trim s) = lex s := by
  have hsplit : ∀ s, s = trimEnd s ++ (s.reverse.takeWhile isBlank).reverse := by
    intro s
    rw [trimEnd, ← List.reverse_append, List.takeWhile_append_dropWhile, List.reverse_reverse]
  have hgap : ∀ c ∈ ((trimStart s).reverse.takeWhile isBlank).reverse, isBlank c = true := by
    intro c hc
    exact List.all_eq_true.mp List.all_takeWhile c (List.mem_reverse.mp hc)
  rw [trim, ← lex_trimStart s]
  conv_rhs => rw [hsplit (trimStart s)]
  exact (lexFrom_append_blanks hgap [] _).symm

theorem trim_eq_nil_iff (s : List Char) : trim s = [] ↔ lex s = [] := by
  constructor
  · intro h
    rw [← lex_trim, h]
    rfl
  · intro h
    rcases lex_cases s with ⟨hs, -⟩ | ⟨_, _, -, -, -, hs⟩ | ⟨_, _, -, -, hs⟩
    · rw [trim, hs]
      rfl
    all_goals cases hs.symm.trans h

/-! ## Reading tokens -/

theorem lex_of_takeName {word : String} (h : takeName s = .ok (word, rest)) :
    IsName word ∧ lex s = name word :: lex rest := by
  rcases lex_cases s with ⟨hs, -⟩ | ⟨word', rest', hword, hhead, hs, hlex⟩ | ⟨c, rest', hc, hs, -⟩
  · simp [takeName, hs] at h
  · obtain ⟨htake, hdrop⟩ := hword.span hhead
    simp only [takeName, hs, htake, hdrop, List.isEmpty_iff, hword.nonempty, if_false,
      String.ofList_toList] at h
    cases h
    exact ⟨hword, hlex⟩
  · simp [takeName, hs, hc.1] at h

theorem exists_takeName_of_lex {word : String} (h : lex s = name word :: ts) :
    ∃ rest, takeName s = .ok (word, rest) ∧ lex rest = ts := by
  rcases lex_cases s with ⟨-, hlex⟩ | ⟨word', rest, hword, hhead, hs, hlex⟩ | ⟨_, _, -, -, hlex⟩
  · cases hlex.symm.trans h
  · cases hlex.symm.trans h
    obtain ⟨htake, hdrop⟩ := hword.span hhead
    refine ⟨rest, ?_, rfl⟩
    simp only [takeName, hs, htake, hdrop, List.isEmpty_iff, hword.nonempty, if_false,
      String.ofList_toList]
  · cases hlex.symm.trans h

theorem lex_of_eat? {c : Char} (hc : (mark c).Valid) (h : eat? c s = some rest) :
    lex s = mark c :: lex rest := by
  rw [← lex_trimStart]
  unfold eat? at h
  split at h
  · rename_i hs
    split at h
    · rename_i heq
      cases h
      rw [hs, heq, lex_mark hc]
    · cases h
  · cases h

theorem exists_eat?_of_lex {c : Char} (h : lex s = mark c :: ts) :
    ∃ rest, eat? c s = some rest ∧ lex rest = ts := by
  rcases lex_cases s with ⟨-, hlex⟩ | ⟨_, _, -, -, -, hlex⟩ | ⟨d, rest, -, hs, hlex⟩
  · cases hlex.symm.trans h
  · cases hlex.symm.trans h
  · cases hlex.symm.trans h
    exact ⟨rest, by simp [eat?, hs], rfl⟩

theorem eat?_eq_none {c : Char} (hc : (mark c).Valid) (h : (lex s).head? ≠ some (mark c)) :
    eat? c s = none := by
  cases heat : eat? c s with
  | none => rfl
  | some rest => exact absurd (congrArg List.head? (lex_of_eat? hc heat)) h

end IndexSync.PropertyType
