import IndexSync.PropertyType.Basic
import IndexSync.Text.Alphanumeric
import IndexSync.Text.Blank

/-!
# Reading property types

A property type is a name, or the name of a container followed by its element
types between angle brackets.  Blanks may stand before and after every token.
A bare name is a scalar keyword or else an object type, so `list` alone names
an object type called `list`.

`PropertyType.parse` reads a whole text; `parseFrom` reads one type off the front
of a text, its first argument bounding the nesting.
-/

namespace IndexSync.PropertyType

open Text

/-- The leading name, and what follows it. -/
def takeName (s : List Char) : Except PropertyTypeFault (String × List Char) :=
  let s := trimStart s
  let name := s.takeWhile isNameChar
  if name.isEmpty then .error .nameExpected
  else .ok (String.ofList name, s.dropWhile isNameChar)

/-- What follows the character `c`, if it comes next. -/
def eat? (c : Char) (s : List Char) : Option (List Char) :=
  match trimStart s with
  | d :: rest => if d = c then some rest else none
  | [] => none

def expect (c : Char) (s : List Char) : Except PropertyTypeFault (List Char) :=
  match eat? c s with
  | some rest => .ok rest
  | none => .error (.expected c)

/-- A name without angle brackets. -/
def ofName (name : String) : PropertyType :=
  match Scalar.ofWord? name with
  | some kind => scalar kind
  | none => object name

/-- The containers of one element type. -/
def container? : String → Option (PropertyType → PropertyType)
  | "list" => some list
  | "set" => some set
  | "array" => some array
  | "optional" => some optional
  | _ => none

/-- One type off the front of the text.  Every level of nesting takes a name,
so a text cannot nest deeper than it is long. -/
def parseFrom : Nat → List Char → Except PropertyTypeFault (PropertyType × List Char)
  | 0, _ => .error .nameExpected
  | depth + 1, s => do
    let (name, s) ← takeName s
    match eat? '<' s with
    | none => return (ofName name, s)
    | some s =>
      let (first, s) ← parseFrom depth s
      if name = "map" then
        let s ← expect ',' s
        let (second, s) ← parseFrom depth s
        let s ← expect '>' s
        return (map first second, s)
      else
        match container? name with
        | none => .error (.notContainer name)
        | some mk =>
          let s ← expect '>' s
          return (mk first, s)

/-- A whole text, with nothing but blanks around the type. -/
def parse (text : String) : Except DataError PropertyType :=
  let s := trim text.toList
  match parseFrom (s.length + 1) s with
  | .error fault => .error (.malformedType text fault)
  | .ok (type, rest) =>
    let rest := trim rest
    if rest.isEmpty then .ok type
    else .error (.malformedType text (.trailing (String.ofList rest)))

end IndexSync.PropertyType
