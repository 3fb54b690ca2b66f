import IndexSync.Sample.Spouses

/-!
# A couple

Two persons who are each other's spouse, all the way from the declarations to an
engine and its answer.

- `Except.value` — the result of a step that is known to succeed.
- `Sample.couple` — the store; its objects are 1 and 2.
-/

/-- The result of a computation that succeeds. -/
def Except.value {ε α : Type} : (x : Except ε α) → x.isOk = true → α
  | .ok a, _ => a

theorem Except.eq_ok_value {ε α : Type} {x : Except ε α} (h : x.isOk = true) :
    x = .ok (x.value h) := by
  cases x with
  | ok a => rfl
  | error e => cases h

theorem Except.eq_ok_of_toOption {ε α : Type} {x : Except ε α} {a : α} (h : x.toOption = some a) :
    x = .ok a := by
  cases x with
  | ok b => exact congrArg _ (Option.some.inj h)
  | error e => cases h

namespace IndexSync.Sample

def coupleSchema : Schema :=
  (Schema.ofDefinitions spouses.types).value (by decide +kernel)

def coupleTable : InverseTable :=
  (InverseTable.register coupleSchema spouses.mapping.inverses).value (by decide +kernel)

def coupleMapping : Mapping coupleSchema :=
  (Mapping.compile coupleSchema spouses.mapping).value (by decide +kernel)

theorem compile_couple : Mapping.compile coupleSchema spouses.mapping = .ok coupleMapping :=
  Except.eq_ok_value _

def coupleEngine : Engine coupleSchema :=
  (Engine.start coupleSchema spouses.mapping {}).value (by decide +kernel)

/-- An engine for the same declarations whose trees have no filters. -/
def coupleUnfiltered : Engine coupleSchema :=
  (Engine.start coupleSchema spouses.mapping { filtering := false }).value (by decide +kernel)

def couple : ObjectStore coupleSchema :=
  (((fillRing 2).run (.empty coupleSchema)).value (by decide +kernel)).2

/-- What a change of the first person calls for. -/
def coupleFound : EntitySet :=
  ((Engine.afterChange couple 1 none).run.run coupleEngine).1.value (by decide +kernel)

/-- A change of nothing but the name. -/
def newName : DirtySet := Std.ExtTreeSet.ofList ["name"]

/-- A change of nothing but the spouse. -/
def newSpouse : DirtySet := Std.ExtTreeSet.ofList ["spouse"]

/-- What a new name of the first person calls for. -/
def renamedFound : EntitySet :=
  ((Engine.afterChange couple 1 (some newName)).run.run coupleEngine).1.value (by decide +kernel)

/-- The same without filters. -/
def unfilteredFound : EntitySet :=
  ((Engine.afterChange couple 1 (some newName)).run.run coupleUnfiltered).1.value
    (by decide +kernel)

/-- What the deletion of the first person calls for. -/
def deletedFound : EntitySet :=
  ((Engine.afterDelete couple 1).run.run coupleEngine).1.value (by decide +kernel)

/-- All that is declared about documents: a person shows the name and embeds the
spouse. -/
def personPart : PartDecl where
  name := "Person"
  indexed := true
  read := ["name"]
  embed := ["spouse"]
  other := []

def nameStep : TypedStep where
  owner := "Person"
  property := "name"
  extractors := []
  cast := none
  element := .scalar .text

def nameSegment : Segment where
  owner := "Person"
  steps := [nameStep]
  target := none

/-- The association between the two, read on one of them. -/
def spouseStep : TypedStep where
  owner := "Person"
  property := "spouse"
  extractors := []
  cast := none
  element := .object "Person"

/-- The only association that a document of this mapping crosses. -/
def spouseSegment : Segment where
  owner := "Person"
  steps := [spouseStep]
  target := some "Person"

/-- The way back over it. -/
def spouseLink : Backlink where
  startCast := none
  steps := [spouseStep]
  endCast := none
  land := "Person"

end IndexSync.Sample
