import IndexSync.Sample.Couple

/-!
# Seats

Firms have their seat at a place.  Places are entities with a document, but one of their
subtypes, the address, is declared as an embeddable.

- `Sample.seats` — the mapping.
- `Sample.seated` — a store where address 1 is the seat of firm 2.
-/

namespace IndexSync.Sample

def seats : MappingSource where
  types := [
    (TypeDef.entity "Place").withId "code" (.scalar .text)
      |>.withProperty "firm" (.object "Firm"),
    (TypeDef.embeddable "Address").extending "Place",
    (TypeDef.entity "Firm").withId "name" (.scalar .text)
      |>.withProperty "seat" (.object "Place")]
  mapping := Declarations.empty
    |>.update "Place" (fun d => d.asIndexed
      |>.reading "firm.name")
    |>.inverse "Place" "firm" "Firm" "seat"

def seatsSchema : Schema :=
  (Schema.ofDefinitions seats.types).value (by decide +kernel)

def seatsMapping : Mapping seatsSchema :=
  (Mapping.compile seatsSchema seats.mapping).value (by decide +kernel)

def seatsEngine : Engine seatsSchema :=
  (Engine.start seatsSchema seats.mapping {}).value (by decide +kernel)

variable {schema : Schema}

/-- An address and the firm that has its seat there. -/
def fillSeats : Edit schema Unit := do
  let address ← create "Address" [("code", .text "A")]
  let firm ← create "Firm" [("name", .text "F"), ("seat", .ref address)]
  assign address "firm" (.ref firm)

def seated : ObjectStore seatsSchema :=
  ((fillSeats.run (.empty seatsSchema)).value (by decide +kernel)).2

/-- What a new name of the firm calls for. -/
def renamedFirmFound : EntitySet :=
  ((Engine.afterChange seated 2 (some newName)).run.run seatsEngine).1.value (by decide +kernel)

end IndexSync.Sample
