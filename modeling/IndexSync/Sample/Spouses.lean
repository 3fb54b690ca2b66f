import IndexSync.Sample.Building

/-!
# Spouses

An association that is its own inverse side: persons embed the document of
their spouse.

- `spouses` — the mapping.
- `fillRing` — persons each of whom is the spouse of the next, all around.
-/

namespace IndexSync.Sample

def spouses : MappingSource where
  types := [
    (TypeDef.entity "Person").withId "id" (.scalar .integer)
      |>.withProperty "name" (.scalar .text)
      |>.withProperty "spouse" (.object "Person")]
  mapping := Declarations.empty
    |>.update "Person" (fun d => d.asIndexed.reading "name" |>.embedding "spouse")
    |>.inverse "Person" "spouse" "Person" "spouse"

variable {schema : Schema}

def fillRing (size : Nat) : Edit schema (List ObjectId) := do
  let ring ← (List.range size).mapM fun (i : Nat) =>
    create "Person" [("id", .integer i), ("name", .text ("person " ++ toString i))]
  let next := ring.drop 1 ++ ring.take 1
  (ring.zip next).forM fun (person, spouse) => assign person "spouse" (.ref spouse)
  return ring

end IndexSync.Sample
