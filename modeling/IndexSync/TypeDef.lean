import IndexSync.PropertyType.Basic

/-!
# Type definitions

The declaration of one domain type.  An *entity* has an identity of its own and
its changes are reported directly; an *embeddable* is part of the state of
whatever refers to it.

Definitions are built up step by step: `TypeDef.entity "Order"` and then
`withId`, `withProperty`, `extending` and `asAbstract`.
-/

namespace IndexSync

inductive TypeSort where
  | entity (idProperty : Option String)
  | embeddable
deriving DecidableEq, Inhabited

structure PropertyDef where
  name : String
  type : PropertyType
deriving DecidableEq, Inhabited

structure TypeDef where
  name : TypeName
  kind : TypeSort
  /-- Abstract types are never the runtime type of an object. -/
  isAbstract : Bool
  /-- Direct supertypes only. -/
  supertypes : List TypeName
  /-- Own properties only. -/
  properties : List PropertyDef
deriving DecidableEq, Inhabited

namespace TypeDef

def entity (name : TypeName) : TypeDef :=
  { name, kind := .entity none, isAbstract := false, supertypes := [], properties := [] }

def embeddable (name : TypeName) : TypeDef :=
  { entity name with kind := .embeddable }

def withProperty (d : TypeDef) (name : String) (type : PropertyType) : TypeDef :=
  { d with properties := d.properties ++ [{ name, type }] }

/-- Declares the identifier, which is a property too and makes the type an
entity. -/
def withId (d : TypeDef) (name : String) (type : PropertyType) : TypeDef :=
  { d with kind := .entity (some name) }.withProperty name type

def asAbstract (d : TypeDef) : TypeDef :=
  { d with isAbstract := true }

def extending (d : TypeDef) (supertype : TypeName) : TypeDef :=
  { d with supertypes := d.supertypes ++ [supertype] }

def isEntity (d : TypeDef) : Bool :=
  match d.kind with
  | .entity _ => true
  | .embeddable => false

def idProperty? (d : TypeDef) : Option String :=
  match d.kind with
  | .entity id => id
  | .embeddable => none

end TypeDef

end IndexSync
