import IndexSync.Value.Basic

/-!
# Extractors

The six ways of getting from a container value to its elements.  A map has two
of them, one for its values and one for its keys.

- `Extractor.word` and `ofWord?` — the words written between square brackets in
  a path; they are inverse to each other.
- `Extractor.elements?` — the elements of a value.
-/

namespace IndexSync

/-- What is taken out of a container. -/
inductive Extractor where
  | list
  | set
  | mapValues
  | mapKeys
  | array
  | optional
deriving DecidableEq, Inhabited

namespace Extractor

/-- Every extractor, in the order of declaration. -/
def all : List Extractor := [list, set, mapValues, mapKeys, array, optional]

def word : Extractor → String
  | list => "list"
  | set => "set"
  | mapValues => "values"
  | mapKeys => "keys"
  | array => "array"
  | optional => "optional"

def ofWord? (word : String) : Option Extractor :=
  all.find? fun e => e.word = word

theorem ofWord?_word (e : Extractor) : ofWord? e.word = some e := by
  cases e <;> decide

theorem ofWord?_eq_some_iff {word : String} {e : Extractor} :
    ofWord? word = some e ↔ word = e.word := by
  constructor
  · intro h
    have he := List.find?_some h
    exact (of_decide_eq_true he).symm
  · rintro rfl
    exact ofWord?_word e

/-- The elements of a value of the right shape, in order.  A null container
has none; any other shape is refused. -/
def elements? : Extractor → Value → Option (List Value)
  | _, .null => some []
  | list, .list items => some items
  | set, .set items => some items
  | array, .array items => some items
  | mapValues, .map entries => some (entries.map (·.2))
  | mapKeys, .map entries => some (entries.map (·.1))
  | optional, .optional inner => some inner.toList
  | _, _ => none

end Extractor

end IndexSync
