import IndexSync.ObjectStore.Basic
import IndexSync.File.Read

/-!
# Building samples

The samples below this folder are small mappings of well-known shapes, each
with a way of filling stores of any size.  A store is filled by a sequence of
checked changes (`Edit`), the first refused one of which ends it.
-/

namespace IndexSync.Sample

/-- A change of a store that gives a result, unless it is refused. -/
abbrev Edit (schema : Schema) := StateT (ObjectStore schema) (Except DataError)

variable {schema : Schema}

def create (type : TypeName) (fields : List (String × Value)) : Edit schema ObjectId :=
  fun s => s.insert type fields

def assign (id : ObjectId) (property : String) (value : Value) : Edit schema Unit :=
  fun s => do return ((), (← s.set id property value).2)

def append (id : ObjectId) (property : String) (element : Value) : Edit schema Unit :=
  fun s => do return ((), ← s.push id property element)

/-- A reference to an object, or null without one. -/
def refTo (id : Option ObjectId) : Value :=
  (id.map .ref).getD .null

end IndexSync.Sample
