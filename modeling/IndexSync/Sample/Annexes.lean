import IndexSync.Sample.Couple

/-!
# Annexes

A place may have an annex, which is a part of the place and, being a place, may have an annex
itself.  Documents of places embed their annex.

- `Sample.annexes` — the mapping.
- `Sample.nestedAnnexes` — declarations that embed the annex of an annex, too, and so on
  without end.
-/

namespace IndexSync.Sample

def annexes : MappingSource where
  types := [
    (TypeDef.entity "Place").withId "code" (.scalar .text)
      |>.withProperty "annex" (.object "Annex"),
    ((TypeDef.embeddable "Annex").extending "Place")
      |>.withProperty "area" (.scalar .integer)]
  mapping := Declarations.empty
    |>.update "Place" (fun d => d.asIndexed.embedding "annex")
    |>.update "Annex" (fun d => d.reading "area")

def nestedAnnexes : Declarations :=
  annexes.mapping.update "Annex" (fun d => d.embedding "annex")

def annexesSchema : Schema :=
  (Schema.ofDefinitions annexes.types).value (by decide +kernel)

def annexesMapping : Mapping annexesSchema :=
  (Mapping.compile annexesSchema annexes.mapping).value (by decide +kernel)

theorem compile_annexes : Mapping.compile annexesSchema annexes.mapping = .ok annexesMapping :=
  Except.eq_ok_value _

/-- What is declared about places. -/
def placePart : PartDecl where
  name := "Place"
  indexed := true
  read := []
  embed := ["annex"]
  other := []

end IndexSync.Sample
