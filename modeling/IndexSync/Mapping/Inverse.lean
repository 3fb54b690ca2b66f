import IndexSync.Mapping.Error
import IndexSync.Mapping.Backlink
import IndexSync.Declarations

/-!
# Inverse sides

The table of declared inverse sides and the backlinks made from them.

- `InverseTable.register` — every declaration counts in both directions; two
  declarations may repeat each other but not contradict.
- `backlinkTo` — a path read as a backlink onto entities of a required type.
- `InverseTable.nearest?`, `linkAlong` — the inverse side that the owner of an
  association or the nearest supertype declares, and the backlink along it.
- `InverseTable.backlinkOver` — the backlink over an association.
-/

namespace IndexSync

/-- The far end of an association and the path that leads back. -/
structure FarSide where
  owner : TypeName
  path : Path
deriving DecidableEq, Inhabited

/-- Inverse sides by owner and property names of the association. -/
structure InverseTable where
  entries : List ((TypeName × String) × FarSide)
deriving DecidableEq, Inhabited

/-- Reads a path of a declaration. -/
def parsePath (owner : TypeName) (text : String) : Except MappingError Path :=
  match Path.parse text with
  | .ok path => .ok path
  | .error e => .error (.invalidPath owner text (.syntaxError e))

/-- Reads a path of a declaration and types it. -/
def elaborateText (m : Schema) (owner : TypeName) (text : String) (goal : PathGoal) :
    Except MappingError (List TypedStep) := do
  let path ← parsePath owner text
  match path.elaborate m owner goal with
  | .ok steps => .ok steps
  | .error e => .error (.invalidPath owner text (.misfit e))

def requireDeclared (m : Schema) (name : TypeName) : Except MappingError Unit :=
  if m.declares name then .ok () else .error (.unknownType name)

namespace InverseTable

def empty : InverseTable := { entries := [] }

def find? (t : InverseTable) (owner : TypeName) (names : String) : Option FarSide :=
  t.entries.lookup (owner, names)

/-- Enters one direction of a declaration. -/
def enter (m : Schema) (t : InverseTable) (owner : TypeName) (path : String)
    (inverseOwner : TypeName) (inversePath : String) : Except MappingError InverseTable := do
  requireDeclared m owner
  let forward ← parsePath owner path
  match forward.elaborate m owner .objects with
  | .error e => .error (.invalidPath owner path (.misfit e))
  | .ok _ =>
    let side : FarSide := { owner := inverseOwner, path := ← parsePath inverseOwner inversePath }
    let names := forward.names
    match t.find? owner names with
    | none => return { entries := t.entries ++ [((owner, names), side)] }
    | some known =>
      if known = side then return t
      else
        .error (.contradictoryInverse owner names (known.owner, known.path) (side.owner, side.path))

/-- Enters both directions of a declaration. -/
def enterBoth (m : Schema) (t : InverseTable) (d : InversePair) :
    Except MappingError InverseTable := do
  let t ← t.enter m d.owner d.path d.inverseOwner d.inversePath
  t.enter m d.inverseOwner d.inversePath d.owner d.path

/-- The table of all declarations. -/
def register (m : Schema) (ds : List InversePair) : Except MappingError InverseTable :=
  ds.foldlM (enterBoth m) empty

end InverseTable

/-- The first entity that a path reaches before its last step. -/
def crossedEntity? (m : Schema) (steps : List TypedStep) : Option TypeName :=
  steps.dropLast.findSome? fun s => s.element.target?.filter m.isEntity

/-- A path from `start`, read as a backlink onto objects of type `required`. -/
def backlinkTo (m : Schema) (start : TypeName) (path : Path) (required : TypeName)
    (startCast : Option TypeName) : Except PathReason Backlink :=
  match path.elaborate m start .objects with
  | .error e => .error (.misfit e)
  | .ok steps =>
    match crossedEntity? m steps with
    | some entity => .error (.crossesEntity path entity)
    | none =>
      let reached := endOf start steps
      if m.fits reached required then
        .ok { startCast, steps, endCast := none, land := reached }
      else if m.fits required reached then
        .ok { startCast, steps, endCast := some required, land := required }
      else .error (.leadsElsewhere path reached required)

/-- The inverse side of the association `owner.names` that the owner or the nearest
supertype declares. -/
def InverseTable.nearest? (m : Schema) (t : InverseTable) (owner : TypeName) (names : String) :
    Option FarSide :=
  (m.supertypes owner).findSome? fun type => t.find? type names

/-- The cast that objects of type `target` need before an inverse side can be read
on them. -/
def startCastFor (m : Schema) (owner : TypeName) (names : String) (target : TypeName)
    (side : FarSide) : Except MappingError (Option TypeName) :=
  if m.fits target side.owner then .ok none
  else if m.fits side.owner target then .ok (some side.owner)
  else .error (.invalidInverse owner names (.unrelatedSide side.owner side.path target))

/-- The backlink along an inverse side of the association `owner.names`, whose
forward side leads to `target`. -/
def linkAlong (m : Schema) (owner : TypeName) (names : String) (target : TypeName)
    (side : FarSide) : Except MappingError Backlink := do
  let startCast ← startCastFor m owner names target side
  (backlinkTo m side.owner side.path owner startCast).mapError (.invalidInverse owner names)

/-- The backlink over the association `owner.names`, whose forward side leads
to `target`.  `whole` is the path that crosses the association. -/
def InverseTable.backlinkOver (m : Schema) (t : InverseTable) (whole : TypeName × String)
    (owner : TypeName) (names : String) (target : TypeName) : Except MappingError Backlink :=
  match t.nearest? m owner names with
  | none => .error (.invalidPath whole.1 whole.2 (.noInverse owner names))
  | some side => linkAlong m owner names target side

end IndexSync
