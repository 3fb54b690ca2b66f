import Mathlib.Data.List.DropRight
import IndexSync.Json.Printer
import IndexSync.Json.Reader

/-!
# Written documents

A document of texts, truth values and nulls is read back from its written form, on one line
or on many.

- `Json.Style`, `Json.layout` — the two ways of writing as one, by what they put between
  the elements (`Json.toList_compact`, `Json.toList_pretty`).
- `Json.isTextual` — no numbers in the document, and nothing that cannot be held.
- `Json.takeString?_escaped` — a string is read back, whatever characters it has.
- `Json.parse?_compact`, `Json.parse?_pretty` — and so is the document; by induction on it.
-/

namespace IndexSync.Json

/-! ## Documents by induction -/

/-- What holds of a document if it holds of its elements and members. -/
theorem induction {P : Json → Prop} (null : P null) (bool : ∀ b, P (bool b))
    (number : ∀ n, P (number n)) (string : ∀ s, P (string s))
    (array : ∀ items, (∀ j ∈ items, P j) → P (array items))
    (object : ∀ members, (∀ m ∈ members, P m.2) → P (object members)) (beyond : P beyond) :
    ∀ j, P j
  | .null => null
  | .bool b => bool b
  | .number n => number n
  | .string s => string s
  | .array items => array items (all items)
  | .object members => object members (allMembers members)
  | .beyond => beyond
where
  all : ∀ items : List Json, ∀ j ∈ items, P j
    | [] => nofun
    | j :: rest => by
        rintro i (_ | ⟨_, hi⟩)
        · exact induction null bool number string array object beyond j
        · exact all rest i hi
  allMembers : ∀ members : List (String × Json), ∀ m ∈ members, P m.2
    | [] => nofun
    | (name, j) :: rest => by
        rintro i (_ | ⟨_, hi⟩)
        · exact induction null bool number string array object beyond j
        · exact allMembers rest i hi

/-! ## Strings -/

theorem takeHex?_hexPair {n : Nat} (h : n < 32) (rest : List Char) :
    takeHex? ('0' :: '0' :: (hexPair n ++ rest)) = some (n, rest) := by
  have hdigits : ∀ n < 32, hexValue? (Nat.digitChar (n / 16)) = some (n / 16) ∧
      hexValue? (Nat.digitChar (n % 16)) = some (n % 16) := by
    decide
  obtain ⟨hfirst, hsecond⟩ := hdigits n h
  have hzero : hexValue? '0' = some 0 := rfl
  have hvalue : ((0 * 16 + 0) * 16 + n / 16) * 16 + n % 16 = n := by omega
  simp only [hexPair, List.cons_append, List.nil_append, takeHex?, hzero, hfirst, hsecond,
    Option.bind_eq_bind, Option.bind_some, hvalue]
  rfl

/-- A character is read back from the way it is written in a string. -/
theorem takeString?_escape (bound : Nat) (found : List Char) (c : Char) (rest : List Char) :
    takeString? (bound + 1) (some found) (escape c ++ rest) =
      takeString? bound (some (c :: found)) rest := by
  unfold escape
  split
  -- the characters that have a letter of their own after the backslash
  · rfl
  · rfl
  · rfl
  · rfl
  · rfl
  · rename_i hquote hslash _ _ _
    -- so have these two, which are told by their numbers
    split
    · rename_i h
      have hc : c = Char.ofNat 8 := by rw [← h, Char.ofNat_toNat]
      rw [hc]
      rfl
    split
    · rename_i h
      have hc : c = Char.ofNat 12 := by rw [← h, Char.ofNat_toNat]
      rw [hc]
      rfl
    split
    -- other control characters are written as four digits, and are no surrogates
    · rename_i h
      have hunicode : takeEscape? ('u' :: '0' :: '0' :: (hexPair c.toNat ++ rest)) =
          some (some c, rest) := by
        have hunit : ¬(0xDC00 ≤ c.toNat ∧ c.toNat ≤ 0xDFFF) := by omega
        have hunit' : ¬(0xD800 ≤ c.toNat ∧ c.toNat ≤ 0xDBFF) := by omega
        show takeUnicode? ('0' :: '0' :: (hexPair c.toNat ++ rest)) = _
        simp only [takeUnicode?, takeHex?_hexPair h, Option.bind_eq_bind, Option.bind_some, hunit,
          hunit', if_false, Char.ofNat_toNat]
        rfl
      simp only [List.cons_append, List.nil_append]
      rw [takeString?, hunicode]
      rfl
    · rename_i h
      rw [List.singleton_append, takeString?]
      · rw [if_neg h]
        rfl
      · exact hquote
      · exact hslash

theorem length_pos_escape (c : Char) : 0 < (escape c).length := by
  unfold escape
  repeat' split
  all_goals exact Nat.succ_pos _

/-- A string is read back after its opening quote. -/
theorem takeString?_escaped {cs : List Char} {bound : Nat} (found rest : List Char)
    (hbound : (cs.flatMap escape).length < bound) :
    takeString? bound (some found) (cs.flatMap escape ++ '"' :: rest) =
      some (some (String.ofList (found.reverse ++ cs)), rest) := by
  obtain ⟨bound, rfl⟩ := Nat.exists_eq_add_one_of_ne_zero (Nat.ne_zero_of_lt hbound)
  induction cs generalizing bound found with
  | nil =>
      rw [List.append_nil]
      rfl
  | cons c cs ih =>
      rw [List.flatMap_cons, List.length_append] at hbound
      have hpos := length_pos_escape c
      obtain ⟨bound, rfl⟩ : ∃ b, bound = b + 1 := Nat.exists_eq_add_one_of_ne_zero (by omega)
      rw [List.flatMap_cons, List.append_assoc, takeString?_escape,
        ih (c :: found) bound (by omega)]
      simp

theorem toList_quoted (s : String) :
    (quoted s).toList = '"' :: (s.toList.flatMap escape ++ ['"']) := by
  simp [quoted]

/-- A string is read back with its quotes. -/
theorem takeQuoted?_quoted {s : String} {bound : Nat} (rest : List Char)
    (hbound : (quoted s).toList.length ≤ bound + 1) :
    takeQuoted? bound ((quoted s).toList ++ rest) = some (some s, rest) := by
  rw [toList_quoted] at hbound ⊢
  simp only [List.length_cons, List.length_append, List.length_nil] at hbound
  rw [List.cons_append, List.append_assoc]
  show takeString? bound (some []) (s.toList.flatMap escape ++ '"' :: rest) = _
  rw [takeString?_escaped [] rest (by omega)]
  simp

/-! ## Layouts -/

/-- What is put between the brackets, elements and colons of a document. -/
structure Style where
  /-- Before an element below so many brackets, and before the last of these. -/
  gap : Nat → List Char
  afterColon : List Char

/-- On one line. -/
def Style.line : Style where
  gap _ := []
  afterColon := []

/-- An element on each line. -/
def Style.lines : Style where
  gap level := '\n' :: (List.replicate level [' ', ' ']).flatten
  afterColon := [' ']

/-- Nothing but blanks is put in between. -/
structure Style.Blank (st : Style) : Prop where
  gap : ∀ level rest, skip (st.gap level ++ rest) = skip rest
  afterColon : ∀ rest, skip (st.afterColon ++ rest) = skip rest

/-- Elements or members one after another, below `level` brackets. -/
def Style.spread (st : Style) (level : Nat) : List (List Char) → List Char
  | [] => []
  | [line] => st.gap (level + 1) ++ line ++ st.gap level
  | line :: next :: rest => st.gap (level + 1) ++ line ++ ',' :: st.spread level (next :: rest)

/-- A document in some style, below `level` brackets. -/
def layout (st : Style) (level : Nat) : Json → List Char
  | array items => '[' :: (st.spread level (elements level items) ++ [']'])
  | object members => '\x7b' :: (st.spread level (fields level members) ++ ['\x7d'])
  | j => j.compact.toList
where
  elements (level : Nat) : List Json → List (List Char)
    | [] => []
    | j :: rest => layout st (level + 1) j :: elements level rest
  fields (level : Nat) : List (String × Json) → List (List Char)
    | [] => []
    | (name, j) :: rest =>
      ((quoted name).toList ++ ':' :: (st.afterColon ++ layout st (level + 1) j)) ::
        fields level rest

/-! ### Elements and members -/

theorem elements_eq_map (st : Style) (level : Nat) (items : List Json) :
    layout.elements st level items = items.map (layout st (level + 1)) := by
  induction items with
  | nil => rfl
  | cons j items ih => rw [layout.elements, ih, List.map_cons]

theorem fields_eq_map (st : Style) (level : Nat) (members : List (String × Json)) :
    layout.fields st level members = members.map fun m =>
      (quoted m.1).toList ++ ':' :: (st.afterColon ++ layout st (level + 1) m.2) := by
  induction members with
  | nil => rfl
  | cons m members ih => rw [layout.fields, ih, List.map_cons]

theorem compactAll_eq_map (items : List Json) : compact.compactAll items = items.map compact := by
  induction items with
  | nil => rfl
  | cons j items ih => rw [compact.compactAll, ih, List.map_cons]

theorem compactMembers_eq_map (members : List (String × Json)) :
    compact.compactMembers members = members.map fun m => quoted m.1 ++ ":" ++ m.2.compact := by
  induction members with
  | nil => rfl
  | cons m members ih => rw [compact.compactMembers, ih, List.map_cons]

theorem prettyAll_eq_map (level : Nat) (items : List Json) :
    prettyAt.prettyAll level items = items.map (prettyAt (level + 1)) := by
  induction items with
  | nil => rfl
  | cons j items ih => rw [prettyAt.prettyAll, ih, List.map_cons]

theorem prettyMembers_eq_map (level : Nat) (members : List (String × Json)) :
    prettyAt.prettyMembers level members = members.map fun m =>
      quoted m.1 ++ ": " ++ m.2.prettyAt (level + 1) := by
  induction members with
  | nil => rfl
  | cons m members ih => rw [prettyAt.prettyMembers, ih, List.map_cons]

/-! ### The two styles -/

theorem toList_intercalate_comma (level : Nat) (lines : List String) :
    (",".intercalate lines).toList = Style.line.spread level (lines.map String.toList) := by
  induction lines with
  | nil => rfl
  | cons line lines ih =>
      cases lines with
      | nil => simp [Style.spread, Style.line]
      | cons next lines =>
          rw [String.intercalate_cons_cons, String.toList_append, ih]
          simp [Style.spread, Style.line]

theorem toList_compact (j : Json) (level : Nat) : j.compact.toList = layout .line level j := by
  induction j using induction generalizing level with
  | null | bool | number | string | beyond => rfl
  | array items ih =>
      have hitems :
          (items.map compact).map String.toList = items.map (layout .line (level + 1)) := by
        rw [List.map_map]
        exact List.map_congr_left fun j hj => ih j hj (level + 1)
      rw [compact, layout, compactAll_eq_map, elements_eq_map, ← hitems,
        ← toList_intercalate_comma]
      simp
  | object members ih =>
      have hmembers : (members.map fun m => quoted m.1 ++ ":" ++ m.2.compact).map String.toList =
          members.map fun m => (quoted m.1).toList ++ ':' :: layout .line (level + 1) m.2 := by
        rw [List.map_map]
        refine List.map_congr_left fun m hm => ?_
        rw [← ih m hm (level + 1)]
        simp
      rw [compact, layout, compactMembers_eq_map, fields_eq_map]
      show _ = '\x7b' :: (Style.line.spread level (members.map fun m =>
        (quoted m.1).toList ++ ':' :: layout .line (level + 1) m.2) ++ ['\x7d'])
      rw [← hmembers, ← toList_intercalate_comma]
      simp

theorem toList_block (level : Nat) (left right : String) (lines : List String) :
    (block level left right lines).toList =
      left.toList ++ (Style.lines.spread level (lines.map String.toList) ++ right.toList) := by
  have hjoin : ∀ n, (String.join (List.replicate n "  ")).toList =
      (List.replicate n [' ', ' ']).flatten := by
    intro n
    rw [String.toList_join, List.flatMap_def, List.map_replicate]
    rfl
  have hlines : lines ≠ [] → Style.lines.spread level (lines.map String.toList) =
      '\n' :: (",\n".intercalate (lines.map fun line =>
        String.join (List.replicate (level + 1) "  ") ++ line)).toList ++
          Style.lines.gap level := by
    intro hne
    induction lines with
    | nil => exact absurd rfl hne
    | cons line lines ih =>
        cases lines with
        | nil => simp [Style.spread, Style.lines, hjoin]
        | cons next lines =>
            rw [List.map_cons, List.map_cons, Style.spread, ← List.map_cons, ih nofun]
            simp [Style.lines, hjoin, String.intercalate_cons_cons]
  cases lines with
  | nil => simp [block, Style.spread]
  | cons line lines =>
      rw [hlines nofun]
      simp [block, Style.lines, hjoin]

theorem toList_prettyAt (j : Json) (level : Nat) :
    (j.prettyAt level).toList = layout .lines level j := by
  induction j using induction generalizing level with
  | null | bool | number | string | beyond => rfl
  | array items ih =>
      have hitems : (items.map (prettyAt (level + 1))).map String.toList =
          items.map (layout .lines (level + 1)) := by
        rw [List.map_map]
        exact List.map_congr_left fun j hj => ih j hj (level + 1)
      rw [prettyAt, layout, prettyAll_eq_map, elements_eq_map, toList_block, hitems]
      rfl
  | object members ih =>
      have hmembers : (members.map fun m => quoted m.1 ++ ": " ++ m.2.prettyAt (level + 1)).map
          String.toList = members.map fun m =>
            (quoted m.1).toList ++ ':' :: (Style.lines.afterColon ++
              layout .lines (level + 1) m.2) := by
        rw [List.map_map]
        refine List.map_congr_left fun m hm => ?_
        rw [← ih m hm (level + 1)]
        simp [Style.lines]
      rw [prettyAt, layout, prettyMembers_eq_map, fields_eq_map, toList_block, hmembers]
      rfl

/-! ## Reading -/

/-- No numbers, and nothing that cannot be held. -/
def isTextual : Json → Bool
  | null | bool _ | string _ => true
  | number _ | beyond => false
  | array items => allTextual items
  | object members => membersTextual members
where
  allTextual : List Json → Bool
    | [] => true
    | j :: rest => j.isTextual && allTextual rest
  membersTextual : List (String × Json) → Bool
    | [] => true
    | (_, j) :: rest => j.isTextual && membersTextual rest

@[simp] theorem isTextual_null : null.isTextual = true := rfl

@[simp] theorem isTextual_bool (b : Bool) : (bool b).isTextual = true := rfl

@[simp] theorem isTextual_string (s : String) : (string s).isTextual = true := rfl

theorem isTextual_array {items : List Json} :
    (array items).isTextual = true ↔ ∀ j ∈ items, j.isTextual = true := by
  rw [isTextual]
  induction items with
  | nil => simp [isTextual.allTextual]
  | cons j items ih => simp [isTextual.allTextual, ih]

theorem isTextual_object {members : List (String × Json)} :
    (object members).isTextual = true ↔ ∀ m ∈ members, m.2.isTextual = true := by
  rw [isTextual]
  induction members with
  | nil => simp [isTextual.membersTextual]
  | cons m members ih => simp [isTextual.membersTextual, ih]

theorem skip_skip (s : List Char) : skip (skip s) = skip s :=
  List.dropWhile_idempotent _ s

theorem takeValue?_congr {bound : Nat} {s s' : List Char} (h : skip s = skip s') :
    takeValue? bound s = takeValue? bound s' := by
  cases bound with
  | zero => rfl
  | succ bound => rw [takeValue?, takeValue?, h]

theorem takeItems?_congr {bound : Nat} {found : List Json} {s s' : List Char}
    (h : skip s = skip s') : takeItems? bound found s = takeItems? bound found s' := by
  cases bound with
  | zero => rfl
  | succ bound => rw [takeItems?, takeItems?, takeValue?_congr h]

theorem takeMembers?_congr {bound : Nat} {found : Option (List (String × Json))} {s s' : List Char}
    (h : skip s = skip s') : takeMembers? bound found s = takeMembers? bound found s' := by
  cases bound with
  | zero => rfl
  | succ bound => rw [takeMembers?, takeMembers?, h]

theorem takeValue?_array {bound : Nat} {s : List Char} (h : ∀ rest, skip s ≠ ']' :: rest) :
    takeValue? (bound + 1) ('[' :: s) = takeItems? bound [] s := by
  have hskip : skip ('[' :: s) = '[' :: s := rfl
  rw [takeValue?, hskip]
  split
  case h_5 heq =>
    cases heq
    split
    · exact absurd ‹_› (h _)
    · exact takeItems?_congr (skip_skip s)
  -- the other shapes of a value begin otherwise
  all_goals simp at *

theorem takeValue?_object {bound : Nat} {s : List Char} (h : ∀ rest, skip s ≠ '\x7d' :: rest) :
    takeValue? (bound + 1) ('\x7b' :: s) = takeMembers? bound (some []) s := by
  have hskip : skip ('\x7b' :: s) = '\x7b' :: s := rfl
  rw [takeValue?, hskip]
  split
  case h_6 heq =>
    cases heq
    split
    · exact absurd ‹_› (h _)
    · exact takeMembers?_congr (skip_skip s)
  all_goals simp at *

/-- The document is read back from a layout, whatever follows. -/
def ReadsBack (st : Style) (j : Json) : Prop :=
  ∀ level bound rest, (layout st level j).length ≤ bound →
    takeValue? bound (layout st level j ++ rest) = some (j, rest)

section

variable {st : Style} (hst : st.Blank) {level : Nat}
include hst

/-- An element is read; what comes next tells whether there are more. -/
theorem takeItems?_item {j : Json} (hj : ReadsBack st j) {bound : Nat} (found : List Json)
    (rest : List Char) (hbound : (layout st (level + 1) j).length ≤ bound) :
    takeItems? (bound + 1) found (st.gap (level + 1) ++ layout st (level + 1) j ++ rest) =
      match skip rest with
      | ',' :: rest => takeItems? bound (j :: found) rest
      | ']' :: rest => some (array (j :: found).reverse, rest)
      | _ => none := by
  have hread := hj (level + 1) bound rest hbound
  rw [takeItems?, List.append_assoc, takeValue?_congr (hst.gap _ _)]
  generalize takeValue? bound (layout st (level + 1) j ++ rest) = read at hread ⊢
  subst hread
  rfl

/-- Elements are read back up to the closing bracket. -/
theorem takeItems?_spread {items : List Json} (hne : items ≠ [])
    (hitems : ∀ j ∈ items, ReadsBack st j) {bound : Nat} (found : List Json) (rest : List Char)
    (hbound : (st.spread level (items.map (layout st (level + 1)))).length < bound) :
    takeItems? bound found
      (st.spread level (items.map (layout st (level + 1))) ++ ']' :: rest) =
        some (array (found.reverse ++ items), rest) := by
  induction items generalizing bound found with
  | nil => exact absurd rfl hne
  | cons j items ih =>
      obtain ⟨hj, hrest⟩ := List.forall_mem_cons.mp hitems
      obtain ⟨bound, rfl⟩ := Nat.exists_eq_add_one_of_ne_zero (Nat.ne_zero_of_lt hbound)
      cases items with
      | nil =>
          simp only [List.map_cons, List.map_nil, Style.spread, List.length_append] at hbound
          rw [List.map_cons, List.map_nil, Style.spread, List.append_assoc,
            takeItems?_item hst hj found _ (by omega), hst.gap]
          show some (array (j :: found).reverse, rest) = _
          rw [List.reverse_cons]
      | cons next items =>
          simp only [List.map_cons, Style.spread, List.length_append, List.length_cons] at hbound
          rw [List.map_cons, List.map_cons, Style.spread, ← List.map_cons, List.append_assoc,
            takeItems?_item hst hj found _ (by omega)]
          show takeItems? bound (j :: found)
            (st.spread level ((next :: items).map (layout st (level + 1))) ++ ']' :: rest) = _
          rw [ih nofun hrest (j :: found) (by simp only [List.map_cons]; omega),
            List.reverse_cons, List.append_assoc]
          rfl

/-- A member is read; what comes next tells whether there are more. -/
theorem takeMembers?_member {name : String} {j : Json} (hj : ReadsBack st j) {bound : Nat}
    (found : List (String × Json)) (rest : List Char)
    (hname : (quoted name).toList.length ≤ bound + 1)
    (hbound : (layout st (level + 1) j).length ≤ bound) :
    takeMembers? (bound + 1) (some found) (st.gap (level + 1) ++
      ((quoted name).toList ++ ':' :: (st.afterColon ++ layout st (level + 1) j)) ++ rest) =
      match skip rest with
      | ',' :: rest => takeMembers? bound (some ((name, j) :: found)) rest
      | '\x7d' :: rest => some (object ((name, j) :: found).reverse, rest)
      | _ => none := by
  have hskip : ∀ more, skip ((quoted name).toList ++ more) = (quoted name).toList ++ more := by
    intro more
    rw [toList_quoted]
    rfl
  rw [takeMembers?]
  simp only [List.append_assoc, List.cons_append]
  rw [hst.gap, hskip, takeQuoted?_quoted _ hname]
  have hcolon : ∀ more, skip (':' :: more) = ':' :: more := fun _ => rfl
  simp only [hcolon]
  rw [takeValue?_congr (hst.afterColon _), hj (level + 1) bound _ hbound]
  rfl

/-- Members are read back up to the closing brace. -/
theorem takeMembers?_spread {members : List (String × Json)} (hne : members ≠ [])
    (hmembers : ∀ m ∈ members, ReadsBack st m.2) {bound : Nat} (found : List (String × Json))
    (rest : List Char)
    (hbound : (st.spread level (layout.fields st level members)).length < bound) :
    takeMembers? bound (some found)
      (st.spread level (layout.fields st level members) ++ '\x7d' :: rest) =
        some (object (found.reverse ++ members), rest) := by
  induction members generalizing bound found with
  | nil => exact absurd rfl hne
  | cons m members ih =>
      obtain ⟨name, j⟩ := m
      obtain ⟨hj, hrest⟩ := List.forall_mem_cons.mp hmembers
      replace hj : ReadsBack st j := hj
      obtain ⟨bound, rfl⟩ := Nat.exists_eq_add_one_of_ne_zero (Nat.ne_zero_of_lt hbound)
      cases members with
      | nil =>
          simp only [layout.fields, Style.spread, List.length_append, List.length_cons] at hbound
          rw [layout.fields, layout.fields, Style.spread, List.append_assoc,
            takeMembers?_member hst hj found _ (by omega) (by omega), hst.gap]
          show some (object ((name, j) :: found).reverse, rest) = _
          rw [List.reverse_cons]
      | cons next members =>
          simp only [layout.fields, Style.spread, List.length_append, List.length_cons] at hbound
          rw [layout.fields, layout.fields, Style.spread, ← layout.fields, List.append_assoc,
            takeMembers?_member hst hj found _ (by omega) (by omega)]
          show takeMembers? bound (some ((name, j) :: found))
            (st.spread level (layout.fields st level (next :: members)) ++ '\x7d' :: rest) = _
          rw [ih nofun hrest ((name, j) :: found) (by simp only [layout.fields]; omega),
            List.reverse_cons, List.append_assoc]
          rfl

/-- What is spread begins with the first element. -/
theorem exists_skip_spread (line : List Char) (lines : List (List Char)) (rest : List Char) :
    ∃ more, skip (st.spread level (line :: lines) ++ rest) = skip (line ++ more) := by
  cases lines with
  | nil =>
      refine ⟨st.gap level ++ rest, ?_⟩
      rw [Style.spread, List.append_assoc, List.append_assoc, hst.gap]
  | cons next lines =>
      refine ⟨',' :: (st.spread level (next :: lines) ++ rest), ?_⟩
      rw [Style.spread, List.append_assoc, List.append_assoc, hst.gap]
      rfl

omit hst in
/-- A document does not begin with a closing bracket. -/
theorem skip_layout_ne {j : Json} (h : j.isTextual = true) (more rest : List Char) :
    skip (layout st level j ++ more) ≠ ']' :: rest := by
  cases j with
  | null => exact nofun
  | bool b => cases b <;> exact nofun
  | string s =>
      rw [layout, compact, toList_quoted]
      · exact nofun
      all_goals exact nofun
  | number | beyond => cases h
  | array | object => exact nofun

/-- A document of texts, truth values and nulls is read back from a layout. -/
theorem readsBack_of_isTextual {j : Json} (h : j.isTextual = true) : ReadsBack st j := by
  induction j using induction with
  | null =>
      intro level bound rest hbound
      obtain ⟨bound, rfl⟩ := Nat.exists_eq_add_one_of_ne_zero (Nat.ne_zero_of_lt hbound)
      rw [takeValue?]
      rfl
  | bool b =>
      intro level bound rest hbound
      cases b <;>
      · obtain ⟨bound, rfl⟩ := Nat.exists_eq_add_one_of_ne_zero (Nat.ne_zero_of_lt hbound)
        rw [takeValue?]
        rfl
  | string s =>
      intro level bound rest hbound
      replace hbound : (quoted s).toList.length ≤ bound := hbound
      have hpos : (quoted s).toList.length ≠ 0 := by simp [toList_quoted]
      obtain ⟨bound, rfl⟩ : ∃ b, bound = b + 1 := Nat.exists_eq_add_one_of_ne_zero (by omega)
      have hread := takeQuoted?_quoted rest hbound
      rw [layout, compact, takeValue?]
      · rw [toList_quoted, List.cons_append] at hread
        rw [toList_quoted]
        show (takeQuoted? bound ('"' :: (s.toList.flatMap escape ++ ['"'] ++ rest))).map _ = _
        rw [hread]
        rfl
      all_goals exact nofun
  | number | beyond => cases h
  | array items ih =>
      intro level bound rest hbound
      have hitems := isTextual_array.mp h
      rw [layout, elements_eq_map] at hbound ⊢
      simp only [List.length_cons, List.length_append, List.length_nil] at hbound
      obtain ⟨bound, rfl⟩ : ∃ b, bound = b + 1 := Nat.exists_eq_add_one_of_ne_zero (by omega)
      rw [List.cons_append, List.append_assoc, List.singleton_append]
      cases items with
      | nil =>
          rw [takeValue?]
          rfl
      | cons j items =>
          rw [takeValue?_array]
          · exact takeItems?_spread hst (List.cons_ne_nil j items)
              (fun j hj => ih j hj (hitems j hj)) [] rest (by omega)
          · intro after
            obtain ⟨more, hskip⟩ := exists_skip_spread hst (layout st (level + 1) j)
              (items.map (layout st (level + 1))) (']' :: rest)
            rw [List.map_cons, hskip]
            exact skip_layout_ne (hitems j List.mem_cons_self) more after
  | object members ih =>
      intro level bound rest hbound
      have hmembers := isTextual_object.mp h
      rw [layout] at hbound ⊢
      simp only [List.length_cons, List.length_append, List.length_nil] at hbound
      obtain ⟨bound, rfl⟩ : ∃ b, bound = b + 1 := Nat.exists_eq_add_one_of_ne_zero (by omega)
      rw [List.cons_append, List.append_assoc, List.singleton_append]
      cases members with
      | nil =>
          rw [takeValue?]
          rfl
      | cons m members =>
          rw [takeValue?_object]
          · exact takeMembers?_spread hst (List.cons_ne_nil m members)
              (fun m hm => ih m hm (hmembers m hm)) [] rest (by omega)
          · intro after
            obtain ⟨more, hskip⟩ := exists_skip_spread hst
              ((quoted m.1).toList ++ ':' :: (st.afterColon ++ layout st (level + 1) m.2))
              (layout.fields st level members) ('\x7d' :: rest)
            rw [layout.fields, hskip, toList_quoted]
            exact nofun

end

theorem blank_line : Style.line.Blank :=
  ⟨fun _ _ => rfl, fun _ => rfl⟩

theorem blank_lines : Style.lines.Blank := by
  refine ⟨fun level rest => ?_, fun _ => rfl⟩
  show skip ((List.replicate level [' ', ' ']).flatten ++ rest) = skip rest
  induction level with
  | zero => rfl
  | succ level ih =>
      rw [List.replicate_succ, List.flatten_cons]
      exact ih

/-- The written form by itself. -/
theorem parse?_of_layout {st : Style} (hst : st.Blank) {j : Json} (h : j.isTextual = true)
    {text : String} (htext : text.toList = layout st 0 j) : parse? text = some j := by
  have hread := readsBack_of_isTextual hst h 0 (text.toList.length + 1) [] (by rw [htext]; omega)
  rw [List.append_nil, ← htext] at hread
  rw [parse?, hread]
  rfl

/-- A document of texts, truth values and nulls is read back from one line. -/
theorem parse?_compact {j : Json} (h : j.isTextual = true) : parse? j.compact = some j :=
  parse?_of_layout blank_line h (toList_compact j 0)

/-- So it is from many lines. -/
theorem parse?_pretty {j : Json} (h : j.isTextual = true) : parse? j.pretty = some j :=
  parse?_of_layout blank_lines h (toList_prettyAt j 0)

end IndexSync.Json
