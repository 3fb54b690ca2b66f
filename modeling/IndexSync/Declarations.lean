import IndexSync.DataError

/-!
# Declarations

What an application says about its documents, in the texts it was written in:
which types have a document, which paths a document reads and embeds, which
values it takes from other entities, and which associations are each other's
inverse side.  Nothing is checked before the declarations are compiled
(`IndexSync.Mapping.Compile`).

`Declarations.update` adds to the declarations of a type, which are created on
first use.
-/

namespace IndexSync

/-- Values that a document takes from entities that point back at its type. -/
structure Dependency where
  /-- The entity type that holds the values. -/
  type : TypeName
  /-- The path from the other entity back to the declaring type. -/
  inversePath : String
  /-- The paths read on the other entity. -/
  used : List String
deriving DecidableEq, Inhabited

/-- The declarations of one type. -/
structure PartDecl where
  name : TypeName
  /-- Whether the type and its subtypes have a document. -/
  indexed : Bool
  /-- Paths whose values the document holds. -/
  read : List String
  /-- Paths to objects whose own document part the document embeds. -/
  embed : List String
  other : List Dependency
deriving DecidableEq, Inhabited

/-- Two paths that are each other's inverse side. -/
structure InversePair where
  owner : TypeName
  path : String
  inverseOwner : TypeName
  inversePath : String
deriving DecidableEq, Inhabited

structure Declarations where
  types : List PartDecl
  inverses : List InversePair
deriving DecidableEq, Inhabited

namespace PartDecl

def empty (name : TypeName) : PartDecl :=
  { name, indexed := false, read := [], embed := [], other := [] }

def asIndexed (d : PartDecl) : PartDecl :=
  { d with indexed := true }

def reading (d : PartDecl) (path : String) : PartDecl :=
  { d with read := d.read ++ [path] }

def embedding (d : PartDecl) (path : String) : PartDecl :=
  { d with embed := d.embed ++ [path] }

def fromOther (d : PartDecl) (type : TypeName) (inversePath : String) (used : List String) :
    PartDecl :=
  { d with other := d.other ++ [{ type, inversePath, used }] }

end PartDecl

namespace Declarations

def empty : Declarations := { types := [], inverses := [] }

/-- The first declarations under a name. -/
def find? (ds : Declarations) (name : TypeName) : Option PartDecl :=
  ds.types.find? fun d => d.name = name

/-- Changes the first declarations under a name; a new name goes last. -/
def update (ds : Declarations) (name : TypeName) (f : PartDecl → PartDecl) :
    Declarations :=
  { ds with types := go ds.types }
where
  go : List PartDecl → List PartDecl
    | [] => [f (.empty name)]
    | d :: rest => if d.name = name then f d :: rest else d :: go rest

def inverse (ds : Declarations) (owner : TypeName) (path : String) (inverseOwner : TypeName)
    (inversePath : String) : Declarations :=
  { ds with inverses := ds.inverses ++ [{ owner, path, inverseOwner, inversePath }] }

end Declarations

end IndexSync
