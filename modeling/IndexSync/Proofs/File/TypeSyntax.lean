import IndexSync.Proofs.File.Tokens
import IndexSync.Proofs.Success

/-!
# The tokens of property types

A text is read as a type if its tokens are those of the type, whatever blanks stand between them.

- `PropertyType.tokens` — the tokens of a written type.
- `induction_containers` — names, containers of one element type and maps.
- `lex_of_parseFrom`, `exists_parseFrom_of_lex` — reading a type takes its tokens off the front
  of the text, and stops behind them; by induction on the nesting, and on the type.
- `parse_eq_ok_iff_lex`, `parse_eq_ok_iff_spaced` — so with whole texts.
- `spaced_render`, `parse_render` — a type is written as its tokens, and read back.
-/

namespace IndexSync.PropertyType

open Text Token

/-- The tokens of a container: its word, and what it holds between angle brackets. -/
def bracketed (word : String) (inner : List Token) : List Token :=
  name word :: mark '<' :: (inner ++ [mark '>'])

/-- The tokens of the written form. -/
def tokens : PropertyType → List Token
  | scalar kind => [name kind.word]
  | object type => [name type]
  | list e => bracketed "list" e.tokens
  | set e => bracketed "set" e.tokens
  | array e => bracketed "array" e.tokens
  | optional e => bracketed "optional" e.tokens
  | map k v => bracketed "map" (k.tokens ++ mark ',' :: v.tokens)

variable {type : PropertyType} {s rest : List Char} {ts : List Token}

/-! ## Names and containers -/

theorem valid_mark : (mark '<').Valid ∧ (mark '>').Valid ∧ (mark ',').Valid := by
  refine ⟨⟨?_, ?_⟩, ⟨?_, ?_⟩, ?_, ?_⟩ <;> decide +kernel

theorem tokens_ofName (word : String) : (ofName word).tokens = [name word] := by
  unfold ofName
  split
  · rename_i kind hkind
    have hword : kind.word = word := by simpa using List.find?_some hkind
    rw [tokens, hword]
  · rfl

theorem plain_ofName {word : String} (h : IsName word) : (ofName word).Plain := by
  unfold ofName
  split
  · trivial
  · rename_i hnone
    exact ⟨h, hnone⟩

/-- A type that is no container is a name that stands for itself. -/
theorem Plain.exists_ofName (h : type.Plain) (hname : type.isContainer = false) :
    ∃ word, IsName word ∧ type = ofName word := by
  cases type with
  | scalar kind =>
      refine ⟨kind.word, ?_, ?_⟩ <;> cases kind <;> decide +kernel
  | object name => exact ⟨name, h.isName, by rw [ofName, h.unreserved]⟩
  | list | set | array | optional | map => cases hname

theorem container?_spec {word : String} {mk : PropertyType → PropertyType}
    (h : container? word = some mk) (e : PropertyType) :
    word ≠ "map" ∧ (mk e).tokens = bracketed word e.tokens ∧ ((mk e).Plain ↔ e.Plain) ∧
      (mk e).isContainer = true ∧ (mk e).nesting = e.nesting + 1 := by
  unfold container? at h
  split at h <;> cases h <;> exact ⟨by decide, rfl, Iff.rfl, rfl, rfl⟩

/-- A container is written as its word and what it holds. -/
theorem exists_of_isContainer (h : type.isContainer = true) :
    (∃ k v, type = map k v) ∨ ∃ word mk e, container? word = some mk ∧ type = mk e := by
  cases type with
  | scalar | object => cases h
  | map k v => exact .inl ⟨k, v, rfl⟩
  | list e => exact .inr ⟨"list", list, e, rfl, rfl⟩
  | set e => exact .inr ⟨"set", set, e, rfl, rfl⟩
  | array e => exact .inr ⟨"array", array, e, rfl, rfl⟩
  | optional e => exact .inr ⟨"optional", optional, e, rfl, rfl⟩

/-- To show something of all types it is enough to look at names, at containers of one element
type, and at maps. -/
@[elab_as_elim]
theorem induction_containers {p : PropertyType → Prop} (type : PropertyType)
    (name : ∀ type, type.isContainer = false → p type)
    (container : ∀ word mk e, container? word = some mk → p e → p (mk e))
    (map : ∀ k v, p k → p v → p (map k v)) : p type := by
  induction type with
  | scalar | object => exact name _ rfl
  | list e ih => exact container "list" _ e rfl ih
  | set e ih => exact container "set" _ e rfl ih
  | array e ih => exact container "array" _ e rfl ih
  | optional e ih => exact container "optional" _ e rfl ih
  | map k v ihk ihv => exact map k v ihk ihv

/-! ## Reading -/

theorem lex_of_expect {c : Char} (hc : (mark c).Valid) (h : expect c s = .ok rest) :
    lex s = mark c :: lex rest := by
  unfold expect at h
  split at h
  · rename_i heat
    cases h
    exact lex_of_eat? hc heat
  · cases h

theorem exists_expect_of_lex {c : Char} (h : lex s = mark c :: ts) :
    ∃ rest, expect c s = .ok rest ∧ lex rest = ts := by
  obtain ⟨rest, heat, hrest⟩ := exists_eat?_of_lex h
  exact ⟨rest, by rw [expect, heat], hrest⟩

/-- What is read off the front of a text is a type whose tokens the text begins with. -/
theorem lex_of_parseFrom {depth : Nat} (h : parseFrom depth s = .ok (type, rest)) :
    type.Plain ∧ lex s = type.tokens ++ lex rest := by
  obtain ⟨hopen, hclose, hcomma⟩ := valid_mark
  induction depth generalizing type s rest with
  | zero => cases h
  | succ depth ih =>
      obtain ⟨⟨word, s₁⟩, hword, h⟩ := Except.bind_eq_ok.mp h
      obtain ⟨hname, hlex⟩ := lex_of_takeName hword
      dsimp only at h
      split at h
      · cases h
        exact ⟨plain_ofName hname, by rw [tokens_ofName, hlex]; rfl⟩
      · rename_i s₂ hs₂
        obtain ⟨⟨first, s₃⟩, hfirst, h⟩ := Except.bind_eq_ok.mp h
        obtain ⟨hplain, hlex₂⟩ := ih hfirst
        rw [hlex, lex_of_eat? hopen hs₂, hlex₂]
        dsimp only at h
        split at h
        · rename_i hmap
          obtain ⟨s₄, hs₄, h⟩ := Except.bind_eq_ok.mp h
          obtain ⟨⟨second, s₅⟩, hsecond, h⟩ := Except.bind_eq_ok.mp h
          obtain ⟨s₆, hs₆, h⟩ := Except.bind_eq_ok.mp h
          cases h
          obtain ⟨hplain', hlex₄⟩ := ih hsecond
          refine ⟨⟨hplain, hplain'⟩, ?_⟩
          rw [lex_of_expect hcomma hs₄, hlex₄, lex_of_expect hclose hs₆, hmap, tokens, bracketed]
          simp
        · split at h
          · cases h
          · rename_i mk hmk
            obtain ⟨s₄, hs₄, h⟩ := Except.bind_eq_ok.mp h
            cases h
            obtain ⟨-, htokens, hiff, -⟩ := container?_spec hmk first
            refine ⟨hiff.mpr hplain, ?_⟩
            rw [lex_of_expect hclose hs₄, htokens, bracketed]
            simp

/-- Behind a name no bracket opens. -/
def Ends (type : PropertyType) (ts : List Token) : Prop :=
  type.isContainer = false → ts.head? ≠ some (mark '<')

theorem ends_nil (type : PropertyType) : type.Ends [] := by
  rintro - heq
  cases heq

theorem ends_mark {c : Char} (h : c ≠ '<') (type : PropertyType) (ts : List Token) :
    type.Ends (mark c :: ts) := by
  rintro - heq
  exact h (mark.inj (Option.some.inj heq))

theorem parseFrom_container_of_lex {depth : Nat} {word : String}
    {mk : PropertyType → PropertyType} {e : PropertyType} (hmk : container? word = some mk)
    (he : ∀ {s}, lex s = e.tokens ++ mark '>' :: ts →
      ∃ rest, parseFrom depth s = .ok (e, rest) ∧ lex rest = mark '>' :: ts)
    (h : lex s = (mk e).tokens ++ ts) :
    ∃ rest, parseFrom (depth + 1) s = .ok (mk e, rest) ∧ lex rest = ts := by
  obtain ⟨hmap, htokens, -⟩ := container?_spec hmk e
  rw [htokens, bracketed, List.cons_append, List.cons_append, List.append_assoc] at h
  obtain ⟨s₁, hword, h₁⟩ := exists_takeName_of_lex h
  obtain ⟨s₂, hopen, h₂⟩ := exists_eat?_of_lex h₁
  obtain ⟨s₃, hfirst, h₃⟩ := he h₂
  obtain ⟨rest, hclose, hrest⟩ := exists_expect_of_lex h₃
  refine ⟨rest, ?_, hrest⟩
  rw [parseFrom, hword]
  simp only [bind, Except.bind, hopen, hfirst, if_neg hmap, hmk, hclose]
  rfl

theorem parseFrom_map_of_lex {depth : Nat} {k v : PropertyType}
    (hk : ∀ {s ts}, lex s = k.tokens ++ mark ',' :: ts →
      ∃ rest, parseFrom depth s = .ok (k, rest) ∧ lex rest = mark ',' :: ts)
    (hv : ∀ {s ts}, lex s = v.tokens ++ mark '>' :: ts →
      ∃ rest, parseFrom depth s = .ok (v, rest) ∧ lex rest = mark '>' :: ts)
    (h : lex s = (map k v).tokens ++ ts) :
    ∃ rest, parseFrom (depth + 1) s = .ok (map k v, rest) ∧ lex rest = ts := by
  have htokens : (map k v).tokens ++ ts =
      name "map" :: mark '<' :: (k.tokens ++ mark ',' :: (v.tokens ++ mark '>' :: ts)) := by
    simp [tokens, bracketed]
  rw [htokens] at h
  obtain ⟨s₁, hword, h₁⟩ := exists_takeName_of_lex h
  obtain ⟨s₂, hopen, h₂⟩ := exists_eat?_of_lex h₁
  obtain ⟨s₃, hfirst, h₃⟩ := hk h₂
  obtain ⟨s₄, hcomma, h₄⟩ := exists_expect_of_lex h₃
  obtain ⟨s₅, hsecond, h₅⟩ := hv h₄
  obtain ⟨rest, hclose, hrest⟩ := exists_expect_of_lex h₅
  refine ⟨rest, ?_, hrest⟩
  rw [parseFrom, hword]
  simp only [bind, Except.bind, hopen, hfirst, if_true, hcomma, hsecond, hclose]
  rfl

/-- A text that begins with the tokens of a type is read as that type, up to where they end. -/
theorem exists_parseFrom_of_lex {depth : Nat} (hplain : type.Plain) (hdepth : type.nesting ≤ depth)
    (h : lex s = type.tokens ++ ts) (hends : type.Ends ts) :
    ∃ rest, parseFrom depth s = .ok (type, rest) ∧ lex rest = ts := by
  induction type using induction_containers generalizing depth s ts with
  | name type hname =>
      obtain ⟨depth, rfl⟩ : ∃ d, depth = d + 1 := by
        refine Nat.exists_eq_add_one_of_ne_zero ?_
        cases type <;> simp only [nesting] at hdepth <;> omega
      obtain ⟨word, -, rfl⟩ := hplain.exists_ofName hname
      rw [tokens_ofName] at h
      obtain ⟨rest, hword, hrest⟩ := exists_takeName_of_lex h
      refine ⟨rest, ?_, hrest⟩
      have hopen : eat? '<' rest = none := eat?_eq_none valid_mark.1 (hrest ▸ hends hname)
      rw [parseFrom, hword]
      simp only [bind, Except.bind, hopen]
      rfl
  | container word mk e hmk ih =>
      obtain ⟨-, -, hiff, -, hnesting⟩ := container?_spec hmk e
      rw [hnesting] at hdepth
      obtain ⟨depth, rfl⟩ := Nat.exists_eq_add_one_of_ne_zero (Nat.ne_zero_of_lt hdepth)
      refine parseFrom_container_of_lex hmk (fun hlex => ?_) h
      exact ih (hiff.mp hplain) (Nat.le_of_succ_le_succ hdepth) hlex (ends_mark (by decide) _ _)
  | map k v ihk ihv =>
      rw [nesting] at hdepth
      obtain ⟨depth, rfl⟩ := Nat.exists_eq_add_one_of_ne_zero (Nat.ne_zero_of_lt hdepth)
      refine parseFrom_map_of_lex (fun hlex => ?_) (fun hlex => ?_) h
      · exact ihk hplain.1 (by omega) hlex (ends_mark (by decide) _ _)
      · exact ihv hplain.2 (by omega) hlex (ends_mark (by decide) _ _)

theorem nesting_le_length_tokens (type : PropertyType) : type.nesting ≤ type.tokens.length := by
  induction type with
  | scalar | object => exact Nat.le_refl 1
  | list e ih | set e ih | array e ih | optional e ih | map k v ihk ihv =>
      simp only [nesting, tokens, bracketed, List.length_cons, List.length_append]
      omega

/-- A text is read as the plain type whose tokens it has, and as no other. -/
theorem parse_eq_ok_iff_lex {text : String} :
    parse text = .ok type ↔ type.Plain ∧ lex text.toList = type.tokens := by
  constructor
  · intro h
    unfold parse at h
    dsimp only at h
    split at h
    · cases h
    · rename_i type' rest hread
      split at h
      · rename_i hrest
        cases h
        obtain ⟨hplain, hlex⟩ := lex_of_parseFrom hread
        rw [lex_trim, (trim_eq_nil_iff rest).mp (List.isEmpty_iff.mp hrest),
          List.append_nil] at hlex
        exact ⟨hplain, hlex⟩
      · cases h
  · rintro ⟨hplain, hlex⟩
    have hdepth : type.nesting ≤ (trim text.toList).length + 1 := by
      have hlength := length_lexFrom_le [] (trim text.toList)
      rw [← lex, lex_trim, hlex, List.length_nil, Nat.zero_add] at hlength
      exact Nat.le_succ_of_le (Nat.le_trans type.nesting_le_length_tokens hlength)
    have htokens : lex (trim text.toList) = type.tokens ++ [] := by
      rw [lex_trim, hlex, List.append_nil]
    obtain ⟨rest, hread, hrest⟩ := exists_parseFrom_of_lex hplain hdepth htokens type.ends_nil
    have hblank : (trim rest).isEmpty = true :=
      List.isEmpty_iff.mpr ((trim_eq_nil_iff rest).mpr hrest)
    unfold parse
    dsimp only
    rw [hread]
    exact if_pos hblank

/-! ## Writing -/

theorem spaced_bracketed {blank : Char → Bool} {inner : List Token} (word : String)
    {text : String} (h : Spaced blank inner text.toList) :
    Spaced blank (bracketed word inner) (word ++ "<" ++ text ++ ">").toList := by
  have hspaced : Spaced blank (bracketed word inner) _ :=
    .token (name word) (.token (mark '<') (h.append (spaced_singleton (mark '>'))))
  simpa [chars] using hspaced

/-- A type is written as its tokens, with a space behind every comma. -/
theorem spaced_render (type : PropertyType) :
    Spaced (· == ' ') type.tokens type.render.toList := by
  induction type with
  | scalar kind => exact spaced_singleton (name kind.word)
  | object type => exact spaced_singleton (name type)
  | list e ih => exact spaced_bracketed "list" ih
  | set e ih => exact spaced_bracketed "set" ih
  | array e ih => exact spaced_bracketed "array" ih
  | optional e ih => exact spaced_bracketed "optional" ih
  | map k v ihk ihv =>
      have hinner : Spaced (· == ' ') (k.tokens ++ mark ',' :: v.tokens)
          (k.render ++ ", " ++ v.render).toList := by
        simpa [chars] using ihk.append (.token (mark ',') (.blank (c := ' ') rfl ihv))
      simpa [render, tokens, String.append_assoc] using spaced_bracketed "map" hinner

theorem valid_bracketed {word : String} {inner : List Token} (hword : IsName word)
    (h : ∀ t ∈ inner, t.Valid) : ∀ t ∈ bracketed word inner, t.Valid := by
  obtain ⟨hopen, hclose, -⟩ := valid_mark
  refine List.forall_mem_cons.mpr ⟨hword, List.forall_mem_cons.mpr ⟨hopen, fun t ht => ?_⟩⟩
  rcases List.mem_append.mp ht with ht | ht
  · exact h t ht
  · cases List.mem_singleton.mp ht
    exact hclose

theorem valid_tokens (h : type.Plain) : ∀ t ∈ type.tokens, t.Valid := by
  have hwords : ∀ word ∈ ["list", "set", "array", "optional", "map"], IsName word := by
    decide +kernel
  induction type using induction_containers with
  | name type hname =>
      obtain ⟨word, hword, rfl⟩ := h.exists_ofName hname
      rw [tokens_ofName]
      exact List.forall_mem_singleton.mpr hword
  | container word mk e hmk ih =>
      obtain ⟨-, htokens, hiff, -⟩ := container?_spec hmk e
      rw [htokens]
      exact valid_bracketed (hwords word (List.mem_append_left ["map"] (word_of_container? hmk)))
        (ih (hiff.mp h))
  | map k v ihk ihv =>
      refine valid_bracketed (hwords "map" (by decide)) fun t ht => ?_
      rcases List.mem_append.mp ht with ht | ht
      · exact ihk h.1 t ht
      · exact List.forall_mem_cons.mpr ⟨valid_mark.2.2, ihv h.2⟩ t ht

theorem isChain_bracketed {word : String} {inner : List Token} (h : inner.IsChain Apart) :
    (bracketed word inner).IsChain Apart := by
  have hinner : (inner ++ [mark '>']).IsChain Apart := by
    refine List.isChain_append.mpr ⟨h, .singleton _, ?_⟩
    rintro (_ | _) - _ ⟨⟩ <;> trivial
  refine List.isChain_cons_cons.mpr ⟨trivial, List.isChain_cons.mpr ⟨fun _ _ => trivial, hinner⟩⟩

theorem isChain_tokens (type : PropertyType) : type.tokens.IsChain Apart := by
  induction type with
  | scalar | object => exact .singleton _
  | list e ih | set e ih | array e ih | optional e ih => exact isChain_bracketed ih
  | map k v ihk ihv =>
      refine isChain_bracketed (List.isChain_append.mpr ⟨ihk, ?_, ?_⟩)
      · exact List.isChain_cons.mpr ⟨fun _ _ => trivial, ihv⟩
      · rintro (_ | _) - _ ⟨⟩ <;> trivial

/-- A text is read as the plain type whose tokens it is, with blanks in between. -/
theorem parse_eq_ok_iff_spaced {text : String} :
    parse text = .ok type ↔ type.Plain ∧ Spaced isBlank type.tokens text.toList := by
  rw [parse_eq_ok_iff_lex]
  refine and_congr_right fun hplain => ⟨fun h => h ▸ spaced_lex _, fun h => ?_⟩
  exact h.lex_eq (valid_tokens hplain) type.isChain_tokens

/-- The written form of a type with plain names is read back as the type. -/
theorem parse_render (h : type.Plain) : parse type.render = .ok type := by
  refine parse_eq_ok_iff_spaced.mpr ⟨h, type.spaced_render.mono fun c hc => ?_⟩
  cases eq_of_beq hc
  rfl

end IndexSync.PropertyType
