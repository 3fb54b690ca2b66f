import IndexSync.Json.Basic

/-!
# Members of objects

Reading the members of a JSON object by name.  A member that the format knows
may stand only once; one that it does not know is passed over.
-/

namespace IndexSync.Json

/-- The members of an object. -/
abbrev Members := List (String × Json)

namespace Members

/-- The value of a member, if there is one; nothing at all if it is repeated. -/
def single? (ms : Members) (name : String) : Option (Option Json) :=
  match ms.filter fun m => m.1 = name with
  | [] => some none
  | [m] => some (some m.2)
  | _ => none

/-- A member that must be there. -/
def required? (ms : Members) (name : String) (read : Json → Option α) : Option α := do
  read (← ← ms.single? name)

/-- A member that may be left out. -/
def defaulted? (ms : Members) (name : String) (default : α) (read : Json → Option α) :
    Option α := do
  match ← ms.single? name with
  | none => return default
  | some j => read j

end Members

/-- A list whose elements can all be read. -/
def list? (read : Json → Option α) (j : Json) : Option (List α) := do
  (← j.asArray?).mapM read

def strings? (j : Json) : Option (List String) := list? asString? j

end IndexSync.Json
