import IndexSync.Proofs.File.TypeSyntax

/-!
# Malformed property types

- `exists_held_of_tokens`, `tokens_append_inj` — where a bracket opens in a written type, a
  container begins; and no type is written at the beginning of another one.
- `count_brackets`, `count_names` — what brackets, names and commas there are.
- `Malformed` — rows of tokens that are those of no type.
- `parse_agrees_with_render` — reading undoes writing, up to blanks, and rejects malformed texts.
-/

namespace IndexSync.PropertyType

open Text Token

variable {type : PropertyType} {s : List Char} {ts : List Token}

/-! ## Types within types -/

/-- What opens a bracket in front of a mark or behind it. -/
theorem append_mark_eq {a b pre post : List Token} {word : String} {c : Char} (hc : c ≠ '<')
    (h : a ++ mark c :: b = pre ++ name word :: mark '<' :: post) :
    (∃ post', a = pre ++ name word :: mark '<' :: post' ∧ post = post' ++ mark c :: b) ∨
      ∃ pre', b = pre' ++ name word :: mark '<' :: post := by
  rcases List.append_eq_append_iff.mp h with ⟨mid, -, hmid⟩ | ⟨mid, ha, hmid⟩
  · cases mid with
    | nil => cases hmid
    | cons t mid => exact .inr ⟨mid, (List.cons.inj hmid).2⟩
  · match mid with
    | [] => cases hmid
    | [t] =>
        obtain ⟨-, hmark⟩ := List.cons.inj hmid
        exact absurd (mark.inj (List.cons.inj hmark).1).symm hc
    | t :: t' :: mid =>
        obtain ⟨hname, hrest⟩ := List.cons.inj hmid
        obtain ⟨hmark, hpost⟩ := List.cons.inj hrest
        exact .inl ⟨mid, by rw [ha, hname, hmark], hpost⟩

theorem bracketed_eq {word' word : String} {inner pre post : List Token}
    (h : bracketed word' inner = pre ++ name word :: mark '<' :: post) :
    name word :: mark '<' :: post = bracketed word' inner ∨
      ∃ pre' post', inner = pre' ++ name word :: mark '<' :: post' ∧
        post = post' ++ [mark '>'] := by
  match pre with
  | [] => exact .inl h.symm
  | [t] => cases (List.cons.inj (List.cons.inj h).2).1
  | _ :: _ :: pre =>
      have hinner := (List.cons.inj (List.cons.inj h).2).2
      rcases append_mark_eq (by decide) hinner with ⟨post', hin, hpost⟩ | ⟨pre', hnil⟩
      · exact .inr ⟨pre, post', hin, hpost⟩
      · simp at hnil

/-- Where a name and a bracket stand in a written type, a container begins. -/
theorem exists_container_of_tokens {word : String} {pre post : List Token}
    (h : type.tokens = pre ++ name word :: mark '<' :: post) :
    ∃ inner : PropertyType, inner.isContainer = true ∧ (type.Plain → inner.Plain) ∧
      inner.tokens <+: name word :: mark '<' :: post := by
  induction type using induction_containers generalizing pre post with
  | name type hname =>
      have hlength : type.tokens.length = 1 := by cases type <;> first | rfl | cases hname
      rw [h, List.length_append, List.length_cons, List.length_cons] at hlength
      omega
  | container mkWord mk e hmk ih =>
      obtain ⟨-, htokens, hiff, hcontainer, -⟩ := container?_spec hmk e
      rw [htokens] at h
      rcases bracketed_eq h with hwhole | ⟨pre', post', hinner, rfl⟩
      · exact ⟨mk e, hcontainer, id, [], (List.append_nil _).trans (htokens.trans hwhole.symm)⟩
      · obtain ⟨inner, hcontainer, hplain, hfront⟩ := ih hinner
        exact ⟨inner, hcontainer, fun h => hplain (hiff.mp h),
          hfront.trans (List.prefix_append _ _)⟩
  | map k v ihk ihv =>
      rcases bracketed_eq h with hwhole | ⟨pre', post', hinner, rfl⟩
      · exact ⟨map k v, rfl, id, [], (List.append_nil _).trans hwhole.symm⟩
      rcases append_mark_eq (by decide) hinner with ⟨post'', hk, rfl⟩ | ⟨pre'', hv⟩
      · obtain ⟨inner, hcontainer, hplain, hfront⟩ := ihk hk
        refine ⟨inner, hcontainer, fun h => hplain h.1, ?_⟩
        rw [List.append_assoc]
        exact hfront.trans (List.prefix_append _ _)
      · obtain ⟨inner, hcontainer, hplain, hfront⟩ := ihv hv
        exact ⟨inner, hcontainer, fun h => hplain h.2, hfront.trans (List.prefix_append _ _)⟩

/-- No type is written at the beginning of another one. -/
theorem tokens_append_inj {type type' : PropertyType} {ts ts' : List Token} (h : type.Plain)
    (h' : type'.Plain) (hs : lex s = type.tokens ++ ts) (hs' : lex s = type'.tokens ++ ts')
    (hends : type.Ends ts) (hends' : type'.Ends ts') : type = type' ∧ ts = ts' := by
  obtain ⟨rest, hread, rfl⟩ := exists_parseFrom_of_lex h
    (Nat.le_max_left type.nesting type'.nesting) hs hends
  obtain ⟨rest', hread', rfl⟩ := exists_parseFrom_of_lex h'
    (Nat.le_max_right type.nesting type'.nesting) hs' hends'
  cases hread.symm.trans hread'
  exact ⟨rfl, rfl⟩

/-- What stands behind a bracket in a written type is what a container of that word holds. -/
theorem exists_held_of_tokens {word : String} {pre post : List Token} (hplain : type.Plain)
    (h : type.tokens = pre ++ name word :: mark '<' :: post) :
    (word = "map" ∧ ∃ k : PropertyType, k.Plain ∧ ∃ post', post = k.tokens ++ mark ',' :: post') ∨
      (container? word).isSome = true ∧
        ∃ e : PropertyType, e.Plain ∧ ∃ post', post = e.tokens ++ mark '>' :: post' := by
  obtain ⟨inner, hcontainer, hinner, more, hmore⟩ := exists_container_of_tokens h
  rcases exists_of_isContainer hcontainer with ⟨k, v, rfl⟩ | ⟨word', mk, e, hmk, rfl⟩
  · obtain ⟨hword, hheld⟩ := List.cons.inj hmore
    refine .inl ⟨(name.inj hword).symm, k, (hinner hplain).1, v.tokens ++ mark '>' :: more, ?_⟩
    simpa using (List.cons.inj hheld).2.symm
  · obtain ⟨-, htokens, hiff, -⟩ := container?_spec hmk e
    rw [htokens] at hmore
    obtain ⟨hword, hheld⟩ := List.cons.inj hmore
    cases name.inj hword
    refine .inr ⟨Option.isSome_of_eq_some hmk, e, hiff.mp (hinner hplain), more, ?_⟩
    simpa using (List.cons.inj hheld).2.symm

/-! ## Counting -/

def isBracket (t : Token) : Bool :=
  t == mark '<' || t == mark '>'

def isName : Token → Bool
  | name _ => true
  | mark _ => false

theorem count_brackets (type : PropertyType) :
    type.tokens.count (mark '<') = type.tokens.count (mark '>') := by
  induction type with
  | scalar | object => simp [tokens]
  | list e ih | set e ih | array e ih | optional e ih | map k v ihk ihv =>
      simp only [tokens, bracketed, List.count_cons, List.count_append, List.count_nil, beq_iff_eq,
        reduceCtorEq, mark.injEq, Char.reduceEq, if_true, if_false]
      omega

/-- Without brackets, a type is written with one name more than containers and commas. -/
theorem count_names (type : PropertyType) :
    3 * type.tokens.countP isName = type.tokens.length + type.tokens.count (mark ',') + 2 := by
  induction type with
  | scalar | object => simp [tokens, isName]
  | list e ih | set e ih | array e ih | optional e ih | map k v ihk ihv =>
      simp [tokens, bracketed, isName, List.countP_cons]
      omega

/-- Brackets cannot be left out. -/
theorem eq_of_sublist_tokens {type' : PropertyType} (h : type.tokens.Sublist type'.tokens)
    (hrest : type.tokens.filter (fun t => !isBracket t) =
      type'.tokens.filter (fun t => !isBracket t)) : type.tokens = type'.tokens := by
  have hnames : ∀ ts : List Token,
      (ts.filter fun t => !isBracket t).countP isName = ts.countP isName := by
    intro ts
    rw [List.countP_filter]
    refine List.countP_congr fun t _ => ?_
    cases t <;> simp [isName, isBracket]
  have hcommas : ∀ ts : List Token,
      (ts.filter fun t => !isBracket t).count (mark ',') = ts.count (mark ',') := fun ts =>
    List.count_filter (by decide)
  have hcount := type.count_names
  rw [← hnames, ← hcommas, hrest, hnames, hcommas] at hcount
  have hcount' := type'.count_names
  exact h.eq_of_length (by omega)

/-! ## Malformed texts -/

/-- Rows of tokens that are those of no type. -/
inductive Malformed : List Token → Prop
  /-- Something stands behind a written type. -/
  | trailing {type : PropertyType} {t : Token} {after : List Token} (h : type.Plain)
      (hends : type.Ends (t :: after)) : Malformed (type.tokens ++ t :: after)
  /-- A bracket has no counterpart. -/
  | unbalanced {ts : List Token} (h : ts.count (mark '<') ≠ ts.count (mark '>')) : Malformed ts
  /-- Brackets have been left out of a written type. -/
  | lacking {type : PropertyType} {ts : List Token} (h : ts.Sublist type.tokens)
      (hne : ts ≠ type.tokens)
      (hrest : ts.filter (fun t => !isBracket t) = type.tokens.filter (fun t => !isBracket t)) :
      Malformed ts
  /-- A bracket opens behind a name that is not the word of a container. -/
  | noContainer {word : String} {pre post : List Token}
      (h : word ∉ ["list", "set", "array", "optional", "map"]) :
      Malformed (pre ++ name word :: mark '<' :: post)
  /-- A map ends behind its first type. -/
  | shortMap {first : PropertyType} {pre post : List Token} (h : first.Plain) :
      Malformed (pre ++ name "map" :: mark '<' :: (first.tokens ++ mark '>' :: post))
  /-- A container of one type goes on behind it. -/
  | longList {word : String} {first : PropertyType} {pre post : List Token}
      (hword : word ∈ ["list", "set", "array", "optional"]) (h : first.Plain) :
      Malformed (pre ++ name word :: mark '<' :: (first.tokens ++ mark ',' :: post))

/-- No type that can be written has malformed tokens. -/
theorem Malformed.tokens_ne (h : Malformed ts) (hs : lex s = ts) (hplain : type.Plain) :
    type.tokens ≠ ts := by
  have hbehind : ∀ {word : String} {pre post : List Token},
      lex s = pre ++ name word :: mark '<' :: post → ∃ rest, lex rest = post := by
    intro word pre post hs
    rw [show pre ++ name word :: mark '<' :: post = (pre ++ [name word, mark '<']) ++ post by
      simp] at hs
    exact exists_lex_of_append hs
  intro heq
  cases h with
  | trailing h hends =>
      have hwhole : lex s = type.tokens ++ [] := by rw [hs, ← heq, List.append_nil]
      cases (tokens_append_inj hplain h hwhole hs type.ends_nil hends).2
  | unbalanced h => exact h (heq ▸ type.count_brackets)
  | lacking h hne hrest =>
      rw [← heq] at h hne hrest
      exact hne (eq_of_sublist_tokens h hrest)
  | noContainer h =>
      rcases exists_held_of_tokens hplain heq with ⟨rfl, -⟩ | ⟨hword, -⟩
      · exact h (by decide)
      · obtain ⟨mk, hmk⟩ := Option.isSome_iff_exists.mp hword
        exact h (List.mem_append_left ["map"] (word_of_container? hmk))
  | shortMap h =>
      obtain ⟨rest, hrest⟩ := hbehind hs
      rcases exists_held_of_tokens hplain heq with ⟨-, k, hk, post', hpost⟩ | ⟨hword, -⟩
      · have hmarks := tokens_append_inj h hk hrest (hrest.trans hpost)
          (ends_mark (by decide) _ _) (ends_mark (by decide) _ _)
        cases hmarks.2
      · cases hword
  | longList hword h =>
      obtain ⟨rest, hrest⟩ := hbehind hs
      rcases exists_held_of_tokens hplain heq with ⟨rfl, -⟩ | ⟨-, e, he, post', hpost⟩
      · exact absurd hword (by decide)
      · have hmarks := tokens_append_inj h he hrest (hrest.trans hpost)
          (ends_mark (by decide) _ _) (ends_mark (by decide) _ _)
        cases hmarks.2

theorem parse_eq_ok_or_error (text : String) :
    (∃ type, parse text = .ok type) ∨ ∃ fault, parse text = .error (.malformedType text fault) := by
  unfold parse
  dsimp only
  split
  · exact .inr ⟨_, rfl⟩
  · split
    · exact .inl ⟨_, rfl⟩
    · exact .inr ⟨_, rfl⟩

/-! ## Reading and writing -/

/-- A plain type is read from its tokens, whatever blanks stand in front of, behind and between
them; and they are the tokens it is written as.  A text that is read as a type has the type's
tokens, so that it is the written form but for the blanks.  Texts with malformed tokens are not
read. -/
theorem parse_agrees_with_render :
    (∀ (type : PropertyType), type.Plain →
      Spaced (· == ' ') type.tokens type.render.toList ∧
      ∀ text, Spaced isBlank type.tokens text.toList → parse text = .ok type) ∧
    (∀ text type, parse text = .ok type →
      type.Plain ∧ parse type.render = .ok type ∧
        Spaced isBlank type.tokens text.toList ∧
        text.toList.filter (fun c => !isBlank c) =
          type.render.toList.filter fun c => !(c == ' ')) ∧
    ∀ text, Malformed (lex text.toList) →
      ∃ fault, parse text = .error (.malformedType text fault) := by
  refine ⟨fun type hplain => ⟨spaced_render type, fun text h => ?_⟩, fun text type h => ?_,
    fun text h => ?_⟩
  · exact parse_eq_ok_iff_spaced.mpr ⟨hplain, h⟩
  · obtain ⟨hplain, hspaced⟩ := parse_eq_ok_iff_spaced.mp h
    have hblank : ∀ t ∈ type.tokens, ∀ c ∈ t.chars, isBlank c = false := fun t ht =>
      (valid_tokens hplain t ht).not_isBlank
    have hspace : ∀ t ∈ type.tokens, ∀ c ∈ t.chars, (c == ' ') = false := by
      intro t ht c hc
      refine beq_eq_false_iff_ne.mpr ?_
      rintro rfl
      cases hblank t ht ' ' hc
    refine ⟨hplain, parse_render hplain, hspaced, ?_⟩
    rw [hspaced.filter_eq hblank, (spaced_render type).filter_eq hspace]
  · rcases parse_eq_ok_or_error text with ⟨type, hok⟩ | hfault
    · obtain ⟨hplain, hlex⟩ := parse_eq_ok_iff_lex.mp hok
      exact absurd hlex.symm (h.tokens_ne rfl hplain)
    · exact hfault

/-- A map, written with blanks where none are needed and without the usual one; and a map of one
type. -/
theorem parse_agrees_with_render_map :
    let type := map (scalar .text) (list (object "Tag"))
    let text := "\tmap<text ,list< Tag>>\n"
    Spaced isBlank type.tokens text.toList ∧ parse text = .ok type ∧ parse type.render = .ok type ∧
      (text.toList.filter fun c => !isBlank c) = (type.render.toList.filter fun c => !(c == ' ')) ∧
      lex "map<text>".toList = name "map" :: mark '<' :: ((scalar .text).tokens ++ [mark '>']) ∧
      ∃ fault, parse "map<text>" = .error (.malformedType "map<text>" fault) := by
  intro type text
  obtain ⟨hread, hwritten, hmalformed⟩ := parse_agrees_with_render
  have htokens : lex text.toList = type.tokens := by decide +kernel
  have hspaced : Spaced isBlank type.tokens text.toList := htokens ▸ spaced_lex _
  have hparse : parse text = .ok type := (hread type (by decide +kernel)).2 text hspaced
  obtain ⟨-, hrender, -, hchars⟩ := hwritten text type hparse
  have hshort : lex "map<text>".toList =
      [] ++ name "map" :: mark '<' :: ((scalar .text).tokens ++ [mark '>']) := by decide +kernel
  refine ⟨hspaced, hparse, hrender, hchars, hshort, hmalformed _ ?_⟩
  rw [hshort]
  exact .shortMap trivial

end IndexSync.PropertyType
