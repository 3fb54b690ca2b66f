import IndexSync.Sample.Couple

/-!
# Teams

A team has a lead and members.  Its document tells of both of them, along paths and along
inverse sides; the document of a person embeds the teams.  Every list of declarations has
more than one member.

- `Sample.teams` — the mapping.
- `Sample.staffed` — a store where person 2 leads team 1, and person 3 is a member.
-/

namespace IndexSync.Sample

def teams : MappingSource where
  types := [
    (TypeDef.entity "Team").withId "name" (.scalar .text)
      |>.withProperty "lead" (.object "Person")
      |>.withProperty "members" (.list (.object "Person")),
    (TypeDef.entity "Person").withId "name" (.scalar .text)
      |>.withProperty "nick" (.scalar .text)
      |>.withProperty "leads" (.object "Team")
      |>.withProperty "team" (.object "Team")]
  mapping := Declarations.empty
    |>.update "Team" (fun d => d.asIndexed
      |>.reading "lead.name"
      |>.reading "members[].name"
      |>.fromOther "Person" "leads" ["nick"]
      |>.fromOther "Person" "team" ["name", "nick"])
    |>.update "Person" (fun d => d.asIndexed
      |>.reading "nick"
      |>.embedding "leads"
      |>.embedding "team")
    |>.inverse "Team" "lead" "Person" "leads"
    |>.inverse "Team" "members" "Person" "team"

def teamsSchema : Schema :=
  (Schema.ofDefinitions teams.types).value (by decide +kernel)

def teamsMapping : Mapping teamsSchema :=
  (Mapping.compile teamsSchema teams.mapping).value (by decide +kernel)

def teamsEngine : Engine teamsSchema :=
  (Engine.start teamsSchema teams.mapping {}).value (by decide +kernel)

variable {schema : Schema}

/-- A team with a lead and a member. -/
def fillTeam : Edit schema Unit := do
  let team ← create "Team" [("name", .text "T")]
  let lead ← create "Person" [("name", .text "L"), ("leads", .ref team)]
  let member ← create "Person" [("name", .text "M"), ("team", .ref team)]
  assign team "lead" (.ref lead)
  append team "members" (.ref member)

def staffed : ObjectStore teamsSchema :=
  ((fillTeam.run (.empty teamsSchema)).value (by decide +kernel)).2

/-- A change of nothing but the nick. -/
def newNick : DirtySet := Std.ExtTreeSet.ofList ["nick"]

/-- What a new nick of the member calls for. -/
def nicknamedFound : EntitySet :=
  ((Engine.afterChange staffed 3 (some newNick)).run.run teamsEngine).1.value (by decide +kernel)

end IndexSync.Sample
