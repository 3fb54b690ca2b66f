import IndexSync.Sample.Couple

/-!
# Desks

Desks show the name of the person who uses them.  Robots have a name and a desk as well,
but are no persons; nothing keeps one from being set as the user of a desk.

- `Sample.desks` — the mapping.
- `Sample.misplaced` — a store where robot 2 uses desk 1.
-/

namespace IndexSync.Sample

def desks : MappingSource where
  types := [
    (TypeDef.entity "Desk").withId "place" (.scalar .integer)
      |>.withProperty "user" (.object "Person"),
    (TypeDef.entity "Person").withId "name" (.scalar .text)
      |>.withProperty "desk" (.object "Desk"),
    (TypeDef.entity "Robot").withId "name" (.scalar .text)
      |>.withProperty "desk" (.object "Desk")]
  mapping := Declarations.empty
    |>.update "Desk" (fun d => d.asIndexed.reading "user.name")
    |>.inverse "Desk" "user" "Person" "desk"

def desksSchema : Schema :=
  (Schema.ofDefinitions desks.types).value (by decide +kernel)

def desksTable : InverseTable :=
  (InverseTable.register desksSchema desks.mapping.inverses).value (by decide +kernel)

def desksMapping : Mapping desksSchema :=
  (Mapping.compile desksSchema desks.mapping).value (by decide +kernel)

def desksEngine : Engine desksSchema :=
  (Engine.start desksSchema desks.mapping {}).value (by decide +kernel)

variable {schema : Schema}

/-- A robot at a desk.  No write compares what is referred to with the declared type. -/
def fillDesks : Edit schema Unit := do
  let desk ← create "Desk" [("place", .integer 7)]
  let robot ← create "Robot" [("name", .text "R"), ("desk", .ref desk)]
  assign desk "user" (.ref robot)

def misplaced : ObjectStore desksSchema :=
  ((fillDesks.run (.empty desksSchema)).value (by decide +kernel)).2

/-- All that is declared about documents. -/
def deskPart : PartDecl where
  name := "Desk"
  indexed := true
  read := ["user.name"]
  embed := []
  other := []

def userStep : TypedStep where
  owner := "Desk"
  property := "user"
  extractors := []
  cast := none
  element := .object "Person"

/-- The association from a desk to its user. -/
def userSegment : Segment where
  owner := "Desk"
  steps := [userStep]
  target := some "Person"

def deskStep : TypedStep where
  owner := "Person"
  property := "desk"
  extractors := []
  cast := none
  element := .object "Desk"

/-- The way back over it. -/
def deskLink : Backlink where
  startCast := none
  steps := [deskStep]
  endCast := none
  land := "Desk"

end IndexSync.Sample
