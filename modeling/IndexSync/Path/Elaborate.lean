import IndexSync.Path.Basic
import IndexSync.Schema.Basic

/-!
# Paths against the schema

Elaboration follows a path through the declared types.  Every extractor and
cast is checked, and containers that the path steps through without saying so
are opened with their usual extractor, so that an elaborated step tells
exactly which operations its values undergo.

- `Path.elaborate` — the typed steps of a path from an owner type, or the
  reason why the path does not fit.
- `PathGoal` — whether the last step must produce objects.
-/

namespace IndexSync

/-- One part of a path with its static types. -/
structure TypedStep where
  /-- The type that the property is read on. -/
  owner : TypeName
  property : String
  /-- The extractors applied to the property's value, written or implied. -/
  extractors : List Extractor
  /-- The subtype that the extracted objects are narrowed to. -/
  cast : Option TypeName
  /-- The type of the values that the step produces. -/
  element : PropertyType
deriving DecidableEq, Inhabited

/-- Property names of typed steps, joined by dots. -/
def stepNames (steps : List TypedStep) : String :=
  dotted (steps.map (·.property))

/-- The type of the objects at the end of steps from `root`. -/
def endOf (root : TypeName) (steps : List TypedStep) : TypeName :=
  (steps.getLast?.bind (·.element.target?)).getD root

/-- What the last step of a path must produce. -/
inductive PathGoal where
  /-- Any value; a container may stay closed. -/
  | anything
  /-- References to objects; containers are opened. -/
  | objects
deriving DecidableEq

/-- Why a path does not fit the schema. -/
inductive PathMisfit where
  | noProperty (type : TypeName) (property : String)
  | notContainer (property : String) (type : PropertyType)
  | cannotExtract (e : Extractor) (type : PropertyType)
  | cannotCast (type : PropertyType) (cast : TypeName)
  | unknownCast (cast : TypeName)
  | notSubtype (cast declared : TypeName)
  | unknownTarget (property : String) (type : TypeName)
  | notObjects (property : String) (type : PropertyType)
  | cannotNavigate (property : String) (type : PropertyType)
deriving DecidableEq

def PathMisfit.message : PathMisfit → String
  | noProperty type property => "type " ++ type ++ " has no property '" ++ property ++ "'"
  | notContainer property type =>
    "'" ++ property ++ "' of type " ++ type.render ++ " is not a container"
  | cannotExtract e type => "cannot extract " ++ e.word ++ " elements from " ++ type.render
  | cannotCast type cast => "cannot cast a " ++ type.render ++ " value to " ++ cast
  | unknownCast cast => "unknown cast type " ++ cast
  | notSubtype cast declared => cast ++ " is not a subtype of " ++ declared
  | unknownTarget property type => "'" ++ property ++ "' refers to unknown type " ++ type
  | notObjects property type => "'" ++ property ++ "' must lead to objects, found " ++ type.render
  | cannotNavigate property type =>
    "cannot navigate past '" ++ property ++ "' of type " ++ type.render

namespace Path

/-- Opens containers with the written extractors, in order. -/
def openWritten (property : String) :
    PropertyType → List (Option Extractor) → Except PathMisfit (List Extractor × PropertyType)
  | type, [] => .ok ([], type)
  | type, written :: rest => do
    let e ← match written with
      | some e => .ok e
      | none =>
        match type.usualExtractor? with
        | some e => .ok e
        | none => .error (.notContainer property type)
    match type.element? e with
    | none => .error (.cannotExtract e type)
    | some element =>
      let (extractors, element) ← openWritten property element rest
      return (e :: extractors, element)

/-- Opens every container with its usual extractor, down to a scalar or an object
type. -/
def openUsual : PropertyType → List Extractor × PropertyType
  | .list e => let (opened, element) := openUsual e; (.list :: opened, element)
  | .set e => let (opened, element) := openUsual e; (.set :: opened, element)
  | .array e => let (opened, element) := openUsual e; (.array :: opened, element)
  | .optional e => let (opened, element) := openUsual e; (.optional :: opened, element)
  | .map _ v => let (opened, element) := openUsual v; (.mapValues :: opened, element)
  | type => ([], type)

/-- Narrows an element type to a subtype. -/
def narrow (m : Schema) (type : PropertyType) : Option TypeName → Except PathMisfit PropertyType
  | none => .ok type
  | some cast =>
    match type with
    | .object declared =>
      if !m.declares cast then .error (.unknownCast cast)
      else if !m.fits cast declared then .error (.notSubtype cast declared)
      else .ok (.object cast)
    | _ => .error (.cannotCast type cast)

/-- Refuses an element type that names an undeclared type. -/
def checkTarget (m : Schema) (property : String) : PropertyType → Except PathMisfit Unit
  | .object target =>
    if m.declares target then .ok () else .error (.unknownTarget property target)
  | _ => .ok ()

/-- One part read on `owner`.  Containers are opened all the way when
`unwrapped` says so, or when the part narrows what it finds. -/
def elaborateStep (m : Schema) (owner : TypeName) (unwrapped : Bool) (part : PathPart) :
    Except PathMisfit TypedStep := do
  match m.property? owner part.property with
  | none => .error (.noProperty owner part.property)
  | some property =>
    let (written, element) ← openWritten part.property property.type part.extractors
    let (implied, element) :=
      if unwrapped || part.cast.isSome then openUsual element else ([], element)
    let element ← narrow m element part.cast
    checkTarget m part.property element
    return { owner, property := part.property, extractors := written ++ implied
             cast := part.cast, element }

/-- The typed steps of a path that starts at objects of type `owner`.  Every
step but the last must produce objects, and so must the last if `goal` asks for
objects. -/
def elaborateSteps (m : Schema) (goal : PathGoal) :
    TypeName → List PathPart → Except PathMisfit (List TypedStep)
  | _, [] => .ok []
  | owner, [part] => do
    let typed ← elaborateStep m owner (goal = .objects) part
    if goal = .objects ∧ typed.element.target?.isNone then
      .error (.notObjects part.property typed.element)
    else return [typed]
  | owner, part :: rest => do
    let typed ← elaborateStep m owner true part
    match typed.element with
    | .object target => return typed :: (← elaborateSteps m goal target rest)
    | _ => .error (.cannotNavigate part.property typed.element)

def elaborate (m : Schema) (owner : TypeName) (goal : PathGoal) (path : Path) :
    Except PathMisfit (List TypedStep) :=
  elaborateSteps m goal owner path.parts

end Path

end IndexSync
