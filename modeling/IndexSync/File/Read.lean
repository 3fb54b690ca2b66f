import IndexSync.File.Types
import IndexSync.File.Declarations
import IndexSync.Json.Reader
import IndexSync.Json.Printer
import IndexSync.Engine

/-!
# Mapping files and object files

A mapping file holds the types and the declarations, an object file the objects:

    {"types": [...], "mapping": {...}}
    {"objects": [{"id": 1, "type": "Customer", "fields": {"id": "C42"}}]}

In a field, an array is a list, and an object with the single member `$ref`
refers to another object of the file.

- `MappingSource.ofText?`, `ObjectSource.ofText?` — the files by themselves.
- `readMapping`, `readObjects` — the schema and the store that they describe.
-/

namespace IndexSync

/-- Why the value of a field is refused. -/
inductive FieldFault where
  | notInteger (n : JsonNumber)
  | notObjectId (j : Json)
  | notReference

def FieldFault.message : FieldFault → String
  | notInteger n => n.render ++ " is not a 64-bit integer"
  | notObjectId j => "$ref must be an object id, found " ++ j.compact
  | notReference => "only \x7b\"$ref\": id\x7d objects are supported"

inductive FileError where
  /-- The file cannot be read. -/
  | unreadable
  /-- The text is no JSON of the expected shape. -/
  | malformed
  | badField (object : ObjectId) (field : String) (fault : FieldFault)
  /-- The types or the objects are refused. -/
  | data (e : DataError)
  /-- The declarations are refused, or a request fails. -/
  | sync (e : SyncError)

def FileError.message : FileError → String
  | unreadable => "the file cannot be read"
  | malformed => "the file is not of the expected shape"
  | badField object field fault =>
    "object " ++ toString object ++ ", field '" ++ field ++ "': " ++ fault.message
  | data e => e.message
  | sync e => e.message

/-- Arrays and objects may nest this deep in a file. -/
def depthLimit : Nat := 127

/-- Whether a part of a file below `level` brackets can be held and stays within
the limit on depth. -/
def withinLimits (level : Nat) (j : Json) : Bool :=
  j.isHeld && decide (level + j.depth ≤ depthLimit)

/-! ## Mapping files -/

structure MappingSource where
  types : List TypeDef
  mapping : Declarations
deriving DecidableEq

namespace MappingSource

def ofJson? (j : Json) : Option MappingSource := do
  let ms ← j.asObject?
  return { types := ← Json.Members.required? ms "types" (Json.list? TypeDef.ofJson?)
           mapping := ← Json.Members.defaulted? ms "mapping" .empty Declarations.ofJson? }

def toJson (f : MappingSource) : Json :=
  .object [("types", .array (f.types.map (·.toJson))), ("mapping", f.mapping.toJson)]

/-- What is read whole lies within the limits. -/
def isWithinLimits (j : Json) : Bool :=
  (((j.field? "types").bind Json.asArray?).getD []).all fun d =>
    (TypeDef.looseMembers d).all (withinLimits 3)

def ofText? (text : String) : Option MappingSource := do
  let j ← Json.parse? text
  let f ← ofJson? j
  if isWithinLimits j then some f else none

end MappingSource

/-! ## Object files -/

structure ObjectEntry where
  id : ObjectId
  type : TypeName
  /-- By name, the last one of each name. -/
  fields : List (String × Json)

structure ObjectSource where
  objects : List ObjectEntry

namespace ObjectEntry

/-- The members of an object in normal form, if all of them can be held. -/
def readFields? (j : Json) : Option (List (String × Json)) :=
  match j.sorted with
  | .object members => if withinLimits 3 j then some members else none
  | _ => none

def ofJson? (j : Json) : Option ObjectEntry := do
  let ms ← j.asObject?
  return { id := ← Json.Members.required? ms "id" Json.asNat?
           type := ← Json.Members.required? ms "type" Json.asString?
           fields := ← Json.Members.defaulted? ms "fields" [] readFields? }

end ObjectEntry

namespace ObjectSource

def ofJson? (j : Json) : Option ObjectSource := do
  let ms ← j.asObject?
  return { objects := ← Json.Members.required? ms "objects" (Json.list? ObjectEntry.ofJson?) }

def ofText? (text : String) : Option ObjectSource := do
  ofJson? (← Json.parse? text)

end ObjectSource

/-! ## Values of fields -/

/-- Whether a number fits into 64 bits, one of them for the sign. -/
def fitsSigned (n : Int) : Bool :=
  -9223372036854775808 ≤ n && n ≤ 9223372036854775807

/-- The value that a JSON value in normal form stands for. -/
def Value.ofJson : Json → Except FieldFault Value
  | .null => .ok .null
  | .bool b => .ok (.bool b)
  | .number (.integer n) =>
    if fitsSigned n then .ok (.integer n) else .error (.notInteger (.integer n))
  | .number n => .error (.notInteger n)
  | .string s => .ok (.text s)
  | .array items => do return .list (← ofJsonAll items)
  | .object [("$ref", target)] =>
    match target.asNat? with
    | some id => .ok (.ref id)
    | none => .error (.notObjectId target)
  | .object _ | .beyond => .error .notReference
where
  ofJsonAll : List Json → Except FieldFault (List Value)
    | [] => .ok []
    | j :: rest => do return (← Value.ofJson j) :: (← ofJsonAll rest)

/-! ## Loading -/

/-- A checked schema with the declarations over it. -/
structure CheckedMapping where
  schema : Schema
  declarations : Declarations

/-- Reads a mapping file; without a text the file could not be read. -/
def readMapping (text : Option String) : Except FileError CheckedMapping :=
  match text with
  | none => .error .unreadable
  | some text =>
    match MappingSource.ofText? text with
    | none => .error .malformed
    | some f =>
      match Schema.ofDefinitions f.types with
      | .error e => .error (.data e)
      | .ok schema => .ok { schema, declarations := f.mapping }

/-- The fields of an entry as values. -/
def ObjectEntry.values (o : ObjectEntry) : Except FileError (List (String × Value)) :=
  o.fields.mapM fun (name, j) =>
    match Value.ofJson j with
    | .ok v => .ok (name, v)
    | .error fault => .error (.badField o.id name fault)

/-- Enters the objects of a file in order. -/
def ObjectSource.load (schema : Schema) (f : ObjectSource) :
    Except FileError (ObjectStore schema) :=
  f.objects.foldlM (fun store o => do
    let fields ← o.values
    match store.insertAt o.id o.type fields with
    | .ok store => .ok store
    | .error e => .error (.data e)) (.empty schema)

/-- Reads an object file over a schema. -/
def readObjects (schema : Schema) (text : Option String) : Except FileError (ObjectStore schema) :=
  match text with
  | none => .error .unreadable
  | some text =>
    match ObjectSource.ofText? text with
    | none => .error .malformed
    | some f => f.load schema

end IndexSync
