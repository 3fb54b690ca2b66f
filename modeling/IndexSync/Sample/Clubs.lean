import IndexSync.Sample.Couple

/-!
# Clubs

The document of a club shows the names of its members.  The code of a club is a list of
numbers, so the order of these is part of what the club is told apart by.

- `Sample.clubs` — the mapping.
- `Sample.enrolled` — a store where person 1 is a member of clubs 2 and 3.
- `Sample.reshuffled`, `Sample.renumbered` — the same with a list in another order: the
  clubs of the person, or the code of a club.
-/

namespace IndexSync.Sample

def clubs : MappingSource where
  types := [
    (TypeDef.entity "Club").withId "code" (.list (.scalar .integer))
      |>.withProperty "members" (.list (.object "Person")),
    (TypeDef.entity "Person").withId "name" (.scalar .text)
      |>.withProperty "clubs" (.list (.object "Club"))]
  mapping := Declarations.empty
    |>.update "Club" (fun d => d.asIndexed
      |>.reading "members[].name")
    |>.inverse "Club" "members" "Person" "clubs"

def clubsSchema : Schema :=
  (Schema.ofDefinitions clubs.types).value (by decide +kernel)

def clubsMapping : Mapping clubsSchema :=
  (Mapping.compile clubsSchema clubs.mapping).value (by decide +kernel)

/-- The tree of persons. -/
def clubsTree : ChangeTree :=
  (ChangeTree.build clubsMapping true "Person").value (by decide +kernel)

variable {schema : Schema}

/-- A person and two clubs. -/
def fillClubs : Edit schema Unit := do
  let person ← create "Person" [("name", .text "P")]
  let first ← create "Club" [("code", .list [.integer 1, .integer 2]),
    ("members", .list [.ref person])]
  let second ← create "Club" [("code", .list [.integer 3]), ("members", .list [.ref person])]
  assign person "clubs" (.list [.ref first, .ref second])

def enrolled : ObjectStore clubsSchema :=
  ((fillClubs.run (.empty clubsSchema)).value (by decide +kernel)).2

/-- The list of clubs as it was, and the store with the list turned round. -/
def reshuffling : Value × ObjectStore clubsSchema :=
  (enrolled.set 1 "clubs" (.list [.ref 3, .ref 2])).value (by decide +kernel)

def reshuffled : ObjectStore clubsSchema := reshuffling.2

/-- The code of the first club as it was, and the store with the code turned round. -/
def renumbering : Value × ObjectStore clubsSchema :=
  (enrolled.set 2 "code" (.list [.integer 2, .integer 1])).value (by decide +kernel)

def renumbered : ObjectStore clubsSchema := renumbering.2

/-- The walk from the root after the person has changed. -/
def enrolledWalk (store : ObjectStore clubsSchema) : Walk clubsSchema :=
  { arena := clubsTree.arena, store, dirty := none }

end IndexSync.Sample
