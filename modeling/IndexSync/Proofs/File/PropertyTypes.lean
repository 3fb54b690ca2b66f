import Mathlib.Data.List.Basic
import IndexSync.PropertyType.Parser

/-!
# Plain property types

- `IsName` — texts of name characters, which end where something else follows.
- `PropertyType.Plain` — the types that can be written down: every object type in them has a
  name of name characters that is not the word of a scalar.
- `PropertyType.nesting` — how deep a type is.
-/

namespace IndexSync

open Text

/-! ## Characters of names -/

namespace Text

theorem isNameChar_eq_false_of_isBlank {c : Char} (h : isBlank c = true) :
    isNameChar c = false := by
  have hall : ∀ n ∈ [9, 10, 11, 12, 13, 32, 0x85, 0xA0, 0x1680, 0x2000, 0x2001, 0x2002, 0x2003,
      0x2004, 0x2005, 0x2006, 0x2007, 0x2008, 0x2009, 0x200A, 0x2028, 0x2029, 0x202F, 0x205F,
      0x3000], isNameChar (Char.ofNat n) = false := by
    decide +kernel
  rw [← Char.ofNat_toNat c]
  apply hall
  simp only [isBlank, Bool.or_eq_true, Bool.and_eq_true, decide_eq_true_eq] at h
  simp only [List.mem_cons, List.not_mem_nil, or_false]
  omega

theorem not_isBlank_of_isNameChar {c : Char} (h : isNameChar c = true) : isBlank c = false := by
  cases hblank : isBlank c with
  | false => rfl
  | true => exact absurd (h.symm.trans (isNameChar_eq_false_of_isBlank hblank)) nofun

end Text

/-- A text of name characters, one at least. -/
structure IsName (s : String) : Prop where
  nonempty : s.toList ≠ []
  all : s.toList.all isNameChar = true

instance (s : String) : Decidable (IsName s) :=
  decidable_of_iff (s.toList ≠ [] ∧ s.toList.all isNameChar = true)
    ⟨fun ⟨nonempty, all⟩ => ⟨nonempty, all⟩, fun ⟨nonempty, all⟩ => ⟨nonempty, all⟩⟩

theorem IsName.isNameChar {s : String} (h : IsName s) : ∀ c ∈ s.toList, isNameChar c = true :=
  List.all_eq_true.mp h.all

/-- A name ends where something else follows. -/
theorem IsName.span {name : String} {rest : List Char} (h : IsName name)
    (hrest : ∀ c ∈ rest.head?, Text.isNameChar c = false) :
    (name.toList ++ rest).takeWhile Text.isNameChar = name.toList ∧
      (name.toList ++ rest).dropWhile Text.isNameChar = rest := by
  have hnone : rest.takeWhile Text.isNameChar = [] ∧ rest.dropWhile Text.isNameChar = rest := by
    cases rest with
    | nil => exact ⟨rfl, rfl⟩
    | cons c rest =>
        rw [List.takeWhile_cons, List.dropWhile_cons, hrest c rfl]
        exact ⟨rfl, rfl⟩
  rw [List.takeWhile_append_of_pos h.isNameChar, List.dropWhile_append_of_pos h.isNameChar,
    hnone.1, hnone.2, List.append_nil]
  exact ⟨rfl, rfl⟩

/-- A name that stands for itself where a type is written. -/
structure PlainName (name : TypeName) : Prop where
  isName : IsName name
  unreserved : Scalar.ofWord? name = none

instance (name : TypeName) : Decidable (PlainName name) :=
  decidable_of_iff (IsName name ∧ Scalar.ofWord? name = none)
    ⟨fun ⟨isName, unreserved⟩ => ⟨isName, unreserved⟩,
      fun ⟨isName, unreserved⟩ => ⟨isName, unreserved⟩⟩

namespace PropertyType

/-- Every object type in it has a name that stands for itself. -/
def Plain : PropertyType → Prop
  | scalar _ => True
  | object name => PlainName name
  | list e | set e | array e | optional e => e.Plain
  | map k v => k.Plain ∧ v.Plain

def decidablePlain : (type : PropertyType) → Decidable type.Plain
  | scalar _ => .isTrue trivial
  | object name => inferInstanceAs (Decidable (PlainName name))
  | list e | set e | array e | optional e => e.decidablePlain
  | map k v => @instDecidableAnd _ _ k.decidablePlain v.decidablePlain

instance (type : PropertyType) : Decidable type.Plain :=
  type.decidablePlain

/-- The words of the containers of one element type. -/
theorem word_of_container? {word : String} {mk : PropertyType → PropertyType}
    (h : container? word = some mk) : word ∈ ["list", "set", "array", "optional"] := by
  unfold container? at h
  split at h <;> first | decide | cases h

/-- How many names stand inside each other. -/
def nesting : PropertyType → Nat
  | scalar _ | object _ => 1
  | list e | set e | array e | optional e => e.nesting + 1
  | map k v => max k.nesting v.nesting + 1

end PropertyType

end IndexSync
