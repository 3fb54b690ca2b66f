import IndexSync.TypeDef

/-!
# The schema

A checked list of type definitions with its inheritance worked out.

- `Schema.ofDefinitions` — refuses repeated names, unknown supertypes and
  cycles, and closes every type under inheritance.
- `Schema.supertypes` — a type followed by everything it inherits from, in
  the order in which declarations are looked up.
- `Schema.property?`, `idProperty?` — the first declaration in that order.
- `Schema.fits` — values of one type may stand for the other.
-/

namespace IndexSync

/-- A type definition together with what inheritance adds to it. -/
structure SchemaType where
  definition : TypeDef
  /-- The type itself first, then whatever it inherits from. -/
  supertypes : List TypeName
  /-- Everything that inherits from the type, in declaration order. -/
  subtypes : List TypeName
  /-- Own properties first, then the inherited ones that are not overridden. -/
  properties : List PropertyDef
deriving DecidableEq, Inhabited

/-- The declared types, in declaration order. -/
structure Schema where
  types : List SchemaType
deriving DecidableEq, Inhabited

namespace Schema

/-! ## Checks -/

def findDefinition? (ds : List TypeDef) (name : TypeName) : Option TypeDef :=
  ds.find? fun d => d.name = name

/-- Refuses a definition that repeats a property, or the name of an earlier
definition. -/
def checkNames (earlier : List TypeName) : List TypeDef → Except DataError Unit
  | [] => .ok ()
  | d :: rest =>
    match firstRepeated [] d.properties with
    | some property => .error (.duplicateProperty d.name property)
    | none =>
      if d.name ∈ earlier then .error (.duplicateType d.name)
      else checkNames (d.name :: earlier) rest
where
  firstRepeated (seen : List String) : List PropertyDef → Option String
    | [] => none
    | p :: rest => if p.name ∈ seen then some p.name else firstRepeated (p.name :: seen) rest

/-- Refuses a supertype that is not declared. -/
def checkSupertypes (ds : List TypeDef) : Except DataError Unit :=
  match ds.findSome? fun d => d.supertypes.find? fun s => (findDefinition? ds s).isNone with
  | some name => .error (.unknownType name)
  | none => .ok ()

/-! ## Inheritance -/

/-- Adds a type and whatever it inherits from to a chain that is closed under
inheritance but for `above`, the types whose supertypes are being followed.
Direct supertypes come depth first in declaration order, each name once.
Meeting one of `above` again is a cycle, and so is a line of descent that is
longer than there are types. -/
def extendChain (ds : List TypeDef) :
    Nat → (above chain : List TypeName) → TypeName → Except DataError (List TypeName)
  | 0, _, _, name => .error (.inheritanceCycle name)
  | depth + 1, above, chain, name =>
    if name ∈ above then .error (.inheritanceCycle name)
    else if name ∈ chain then .ok chain
    else
      match findDefinition? ds name with
      | none => .error (.unknownType name)
      | some d => d.supertypes.foldlM (extendChain ds depth (name :: above)) (chain ++ [name])

/-- A type and whatever it inherits from. -/
def chainOf (ds : List TypeDef) (name : TypeName) : Except DataError (List TypeName) :=
  extendChain ds (ds.length + 1) [] [] name

/-- The first declaration of each property name along a chain. -/
def inheritedProperties (ds : List TypeDef) (chain : List TypeName) : List PropertyDef :=
  (chain.filterMap (findDefinition? ds)).foldl
    (fun found d => d.properties.foldl
      (fun found p => if found.any (·.name = p.name) then found else found ++ [p]) found) []

/-- Checks the definitions and works out inheritance. -/
def ofDefinitions (ds : List TypeDef) : Except DataError Schema := do
  checkNames [] ds
  checkSupertypes ds
  let chains ← ds.mapM fun d => chainOf ds d.name
  let types := (ds.zip chains).map fun (d, chain) =>
    { definition := d
      supertypes := chain
      subtypes := (ds.zip chains).filterMap fun (e, below) =>
        if e.name ≠ d.name ∧ d.name ∈ below then some e.name else none
      properties := inheritedProperties ds chain }
  return { types }

/-! ## Look-ups -/

def size (m : Schema) : Nat := m.types.length

def isEmpty (m : Schema) : Bool := m.types.isEmpty

def typeNames (m : Schema) : List TypeName := m.types.map (·.definition.name)

def definitions (m : Schema) : List TypeDef := m.types.map (·.definition)

def find? (m : Schema) (name : TypeName) : Option SchemaType :=
  m.types.find? fun t => t.definition.name = name

def get (m : Schema) (name : TypeName) : Except DataError SchemaType :=
  match m.find? name with
  | some t => .ok t
  | none => .error (.unknownType name)

def definition? (m : Schema) (name : TypeName) : Option TypeDef :=
  (m.find? name).map (·.definition)

/-- The type itself, then whatever it inherits from; nothing for an undeclared
type. -/
def supertypes (m : Schema) (name : TypeName) : List TypeName :=
  ((m.find? name).map (·.supertypes)).getD []

def subtypes (m : Schema) (name : TypeName) : List TypeName :=
  ((m.find? name).map (·.subtypes)).getD []

def properties (m : Schema) (name : TypeName) : List PropertyDef :=
  ((m.find? name).map (·.properties)).getD []

/-- The declaration of a property that holds for a type, own or inherited. -/
def property? (m : Schema) (owner : TypeName) (property : String) : Option PropertyDef :=
  (m.properties owner).find? fun p => p.name = property

/-- Values of `sub` may stand where `sup` is expected. -/
def fits (m : Schema) (sub sup : TypeName) : Bool :=
  sup ∈ m.supertypes sub

def declares (m : Schema) (name : TypeName) : Bool :=
  (m.find? name).isSome

def isEntity (m : Schema) (name : TypeName) : Bool :=
  (m.definition? name).any (·.isEntity)

def isAbstract (m : Schema) (name : TypeName) : Bool :=
  (m.definition? name).any (·.isAbstract)

/-- Declared, and not abstract: objects can have exactly this type. -/
def isConcrete (m : Schema) (name : TypeName) : Bool :=
  (m.definition? name).any (!·.isAbstract)

/-- The identifier of the nearest type in the chain that declares one. -/
def idProperty? (m : Schema) (name : TypeName) : Option String :=
  (m.supertypes name).findSome? fun t => (m.definition? t).bind (·.idProperty?)

/-- The one-line form of a schema. -/
def render (m : Schema) : String :=
  "TypeModel \x7b types: [" ++ ", ".intercalate m.typeNames ++ "], .. \x7d"

end Schema

end IndexSync
