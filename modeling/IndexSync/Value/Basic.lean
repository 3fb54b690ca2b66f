/-!
# Values

What a property of an object can hold.

- `Value` — scalars, references to other objects, and containers nested to any
  depth.  There are no floating-point numbers, so values are totally ordered
  (`IndexSync.Value.Order`) and can serve as identifiers.
- `Value.shape` — the word for a value's outermost constructor in messages.
- `Value.render` — the one-line rendering used in references and messages.
-/

namespace IndexSync

/-- An object is known by its number within one store. -/
abbrev ObjectId := Nat

/-- The highest id.  Ids have 64 bits. -/
def ObjectId.last : ObjectId := UInt64.size - 1

/-- The id behind another one.  Behind the last one they start over from zero. -/
def ObjectId.next (id : ObjectId) : ObjectId := (id + 1) % UInt64.size

theorem ObjectId.next_of_lt {id : ObjectId} (h : id < last) : id.next = id + 1 :=
  Nat.mod_eq_of_lt (Nat.add_lt_of_lt_sub h)

theorem ObjectId.next_le_last (id : ObjectId) : id.next ≤ last :=
  Nat.le_sub_one_of_lt (Nat.mod_lt _ (by decide))

/-- It is the addition of 64-bit numbers that goes from one id to the next. -/
theorem ObjectId.next_toNat (n : UInt64) : next n.toNat = (n + 1).toNat := by
  rw [UInt64.toNat_add]
  rfl

/-- Ids are written with a hash sign. -/
def ObjectId.text (id : ObjectId) : String :=
  "#" ++ toString id

/-- The content of a property.  `null` is also what an unset property reads as. -/
inductive Value where
  | null
  | bool (b : Bool)
  | integer (n : Int)
  | text (s : String)
  | bytes (bs : List UInt8)
  | ref (id : ObjectId)
  | list (items : List Value)
  | set (items : List Value)
  | array (items : List Value)
  | map (entries : List (Value × Value))
  | optional (inner : Option Value)
deriving Inhabited

namespace Value

def isNull : Value → Bool
  | null => true
  | _ => false

def asRef? : Value → Option ObjectId
  | ref id => some id
  | _ => none

def asText? : Value → Option String
  | text s => some s
  | _ => none

def asInteger? : Value → Option Int
  | integer n => some n
  | _ => none

/-- The word for the outermost constructor. -/
def shape : Value → String
  | null => "null"
  | bool _ => "bool"
  | integer _ => "integer"
  | text _ => "text"
  | bytes _ => "bytes"
  | ref _ => "reference"
  | list _ => "list"
  | set _ => "set"
  | array _ => "array"
  | map _ => "map"
  | optional _ => "optional"

/-- One line of text: texts stand for themselves without quotes, byte strings
show only their length, an optional shows its content. -/
def render : Value → String
  | null => "null"
  | bool true => "true"
  | bool false => "false"
  | integer n => toString n
  | text s => s
  | bytes bs => "<" ++ toString bs.length ++ " bytes>"
  | ref id => id.text
  | list items | set items | array items => "[" ++ ", ".intercalate (renderAll items) ++ "]"
  | map entries => "\x7b" ++ ", ".intercalate (renderEntries entries) ++ "\x7d"
  | optional none => "empty"
  | optional (some v) => v.render
where
  renderAll : List Value → List String
    | [] => []
    | v :: rest => v.render :: renderAll rest
  renderEntries : List (Value × Value) → List String
    | [] => []
    | (k, v) :: rest => (k.render ++ ": " ++ v.render) :: renderEntries rest

end Value

end IndexSync
