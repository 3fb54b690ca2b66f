import IndexSync.Schema.Basic
import IndexSync.SortedMap
import IndexSync.Value.Order

/-!
# The object store

Objects of the declared types, each with a runtime type and the properties that
were set.  They refer to one another by id, so cycles are plain data, and a
removed object leaves dangling references behind.

- `insert`, `insertAt`, `set`, `push`, `remove` — every change is checked
  against the schema first; a refused one leaves the store as it was.
- `read`, `runtimeType` — an unset property reads as null, an undeclared one is
  an error.
- `identity` — the identifier of an object, or the object itself while it has
  none.
-/

namespace IndexSync

structure StoredObject where
  type : TypeName
  properties : SortedMap String Value
deriving DecidableEq

/-- How an object is told apart in an index: by the value of its identifier, or
as this one instance. -/
inductive Identity where
  | id (value : Value)
  | object (id : ObjectId)
deriving DecidableEq

/-- Objects of concrete types that `schema` declares. -/
structure ObjectStore (schema : Schema) where
  objects : SortedMap ObjectId StoredObject
  /-- The id of the next object that is created without one.  It is behind every id in use so
  far, as long as these come before the last one. -/
  nextId : ObjectId
  concrete : ∀ (id : ObjectId) (o : StoredObject),
    objects[id]? = some o → schema.isConcrete o.type = true
deriving DecidableEq

namespace ObjectStore

variable {schema : Schema}

/-- Ids start from one. -/
def empty (schema : Schema) : ObjectStore schema where
  objects := ∅
  nextId := 1
  concrete := by simp

def get? (s : ObjectStore schema) (id : ObjectId) : Option StoredObject := s.objects[id]?

def contains (s : ObjectStore schema) (id : ObjectId) : Bool := s.objects.contains id

def ids (s : ObjectStore schema) : List ObjectId := s.objects.keys

def size (s : ObjectStore schema) : Nat := s.objects.size

def isEmpty (s : ObjectStore schema) : Bool := s.objects.isEmpty

/-! ## Reading -/

def object (s : ObjectStore schema) (id : ObjectId) : Except DataError StoredObject :=
  match s.get? id with
  | some o => .ok o
  | none => .error (.unknownObject id)

def runtimeType (s : ObjectStore schema) (id : ObjectId) : Except DataError TypeName :=
  return (← s.object id).type

theorem isConcrete_of_runtimeType {s : ObjectStore schema} {id : ObjectId} {type : TypeName}
    (h : s.runtimeType id = .ok type) : schema.isConcrete type = true := by
  unfold runtimeType object at h
  cases ho : s.get? id with
  | none => simp [ho, bind, Except.bind] at h
  | some o =>
      simp only [ho] at h
      cases h
      exact s.concrete id o ho

/-- Refuses a property that a type neither declares nor inherits. -/
def requireProperty (schema : Schema) (type : TypeName) (property : String) :
    Except DataError Unit :=
  if (schema.property? type property).isSome then .ok ()
  else .error (.unknownProperty type property)

def read (s : ObjectStore schema) (id : ObjectId) (property : String) : Except DataError Value := do
  let o ← s.object id
  requireProperty schema o.type property
  return o.properties.getD property .null

/-- The object itself if its runtime type fits, nothing otherwise. -/
def narrowed? (s : ObjectStore schema) (id : ObjectId) (target : TypeName) :
    Except DataError (Option ObjectId) := do
  let type ← s.runtimeType id
  return if schema.fits type target then some id else none

def identity (s : ObjectStore schema) (id : ObjectId) : Except DataError Identity := do
  let type ← s.runtimeType id
  match schema.idProperty? type with
  | none => return .object id
  | some property =>
    match ← s.read id property with
    | .null => return .object id
    | value => return .id value

/-! ## Writing -/

/-- The store with `o` under `id`. -/
def put (s : ObjectStore schema) (id : ObjectId) (o : StoredObject)
    (h : schema.isConcrete o.type = true) : ObjectStore schema :=
  { s with
    objects := s.objects.insert id o
    concrete := by
      intro other o' h'
      rw [Std.ExtTreeMap.getElem?_insert] at h'
      split at h'
      · cases h'
        exact h
      · exact s.concrete other o' h' }

/-- The fields of a new object; of a repeated field the last value holds. -/
def checkFields (schema : Schema) (type : TypeName) (fields : List (String × Value)) :
    Except DataError (SortedMap String Value) :=
  fields.foldlM (fun properties (name, value) => do
    requireProperty schema type name
    return properties.insert name value) ∅

/-- Creates an object under a given id. -/
def insertAt (s : ObjectStore schema) (id : ObjectId) (type : TypeName)
    (fields : List (String × Value)) : Except DataError (ObjectStore schema) :=
  match h : schema.definition? type with
  | none => .error (.unknownType type)
  | some d =>
    if abstract : d.isAbstract then .error (.abstractType type)
    else if s.contains id then .error (.duplicateObject id)
    else do
      let properties ← checkFields schema type fields
      return { s.put id { type, properties } (by simp [Schema.isConcrete, h, abstract]) with
               nextId := max s.nextId id.next }

/-- Creates an object under the id that is next. -/
def insert (s : ObjectStore schema) (type : TypeName) (fields : List (String × Value)) :
    Except DataError (ObjectId × ObjectStore schema) :=
  return (s.nextId, ← s.insertAt s.nextId type fields)

/-- Sets a property and gives the value it had. -/
def set (s : ObjectStore schema) (id : ObjectId) (property : String) (value : Value) :
    Except DataError (Value × ObjectStore schema) :=
  match h : s.get? id with
  | none => .error (.unknownObject id)
  | some o => do
    requireProperty schema o.type property
    return (o.properties.getD property .null,
      s.put id { o with properties := o.properties.insert property value } (s.concrete id o h))

/-- A container with one more element.  An unset container becomes a list, and
a set takes only what it does not hold yet. -/
def append? (element : Value) : Value → Option Value
  | .null => some (.list [element])
  | .list items => some (.list (items ++ [element]))
  | .set items => some (.set (if element ∈ items then items else items ++ [element]))
  | .array items => some (.array (items ++ [element]))
  | _ => none

/-- Adds an element to a list, set or array property. -/
def push (s : ObjectStore schema) (id : ObjectId) (property : String) (element : Value) :
    Except DataError (ObjectStore schema) := do
  let current ← s.read id property
  match append? element current with
  | none => .error (.wrongContainer .list current.shape)
  | some updated => return (← s.set id property updated).2

/-- Removes an object; references to it stay and dangle. -/
def remove (s : ObjectStore schema) (id : ObjectId) : Option StoredObject × ObjectStore schema :=
  (s.get? id,
    { s with
      objects := s.objects.erase id
      concrete := by
        intro other o h
        rw [Std.ExtTreeMap.getElem?_erase] at h
        split at h
        · cases h
        · exact s.concrete other o h })

/-- The one-line form of a store. -/
def render (s : ObjectStore schema) : String :=
  "ObjectGraph \x7b objects: " ++ toString s.size ++ ", next_id: " ++ toString s.nextId ++
    ", .. \x7d"

end ObjectStore

end IndexSync
