import IndexSync.Json.Double
import IndexSync.SortedMap

/-!
# JSON

Documents as they were written: members stay in order, and repeated ones stay.
Integers of 64 bits, signed or unsigned, are kept as they are; any other number
is a double.

- `Json.field?` — the member of a name.
- `Json.sorted` — a document in normal form: members by name, the last one of a
  name.
- `Json.depth`, `Json.isHeld` — whether a document can be held by a reader with
  limits.
-/

namespace IndexSync

inductive JsonNumber where
  /-- From `-2^63` to `2^64 - 1`. -/
  | integer (n : Int)
  | real (x : Double)
deriving DecidableEq, Inhabited

inductive Json where
  | null
  | bool (b : Bool)
  | number (n : JsonNumber)
  | string (s : String)
  | array (items : List Json)
  | object (members : List (String × Json))
  /-- Well formed, but nothing that can be held: a number beyond all doubles, a
  string with half of a surrogate pair, or an object with such a name. -/
  | beyond
deriving Inhabited

namespace Json

def integer (n : Int) : Json := number (.integer n)

/-- A natural number. -/
def nat (n : Nat) : Json := integer (Int.ofNat n)

def strings (ss : List String) : Json := array (ss.map string)

/-- A text, or null in its place. -/
def optional (s : Option String) : Json := (s.map string).getD null

def asString? : Json → Option String
  | string s => some s
  | _ => none

def asBool? : Json → Option Bool
  | bool b => some b
  | _ => none

def asInt? : Json → Option Int
  | number (.integer n) => some n
  | _ => none

def asNat? : Json → Option Nat
  | number (.integer (.ofNat n)) => some n
  | _ => none

def asArray? : Json → Option (List Json)
  | array items => some items
  | _ => none

def asObject? : Json → Option (List (String × Json))
  | object members => some members
  | _ => none

/-- The last member of a name. -/
def field? (j : Json) (name : String) : Option Json :=
  (j.asObject?.getD []).reverse.lookup name

/-- How deep arrays and objects nest. -/
def depth : Json → Nat
  | array items => depthAll items + 1
  | object members => depthMembers members + 1
  | _ => 0
where
  depthAll : List Json → Nat
    | [] => 0
    | j :: rest => max j.depth (depthAll rest)
  depthMembers : List (String × Json) → Nat
    | [] => 0
    | (_, j) :: rest => max j.depth (depthMembers rest)

/-- Whether nothing in a document is beyond what can be held. -/
def isHeld : Json → Bool
  | beyond => false
  | array items => allHeld items
  | object members => membersHeld members
  | _ => true
where
  allHeld : List Json → Bool
    | [] => true
    | j :: rest => j.isHeld && allHeld rest
  membersHeld : List (String × Json) → Bool
    | [] => true
    | (_, j) :: rest => j.isHeld && membersHeld rest

/-- Members in order of their names, the last one of each name, at any
depth. -/
def sorted : Json → Json
  | array items => array (sortedAll items)
  | object members => object (Std.ExtTreeMap.ofList (sortedMembers members)).toList
  | j => j
where
  sortedAll : List Json → List Json
    | [] => []
    | j :: rest => j.sorted :: sortedAll rest
  sortedMembers : List (String × Json) → List (String × Json)
    | [] => []
    | (name, j) :: rest => (name, j.sorted) :: sortedMembers rest

end Json

end IndexSync
