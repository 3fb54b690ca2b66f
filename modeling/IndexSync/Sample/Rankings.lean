import IndexSync.Sample.Couple

/-!
# Rankings

Catalogs that rank products by products: a map whose keys and values are of the same
type.  Both are read, but the inverse side is declared for the keys alone.

- `Sample.rankings` — the mapping.
- `Sample.ranked` — a store where catalog 3 ranks product 2 below product 1.
-/

namespace IndexSync.Sample

def rankings : MappingSource where
  types := [
    (TypeDef.entity "Catalog").withId "code" (.scalar .text)
      |>.withProperty "ranks" (.map (.object "Product") (.object "Product")),
    (TypeDef.entity "Product").withId "sku" (.scalar .integer)
      |>.withProperty "name" (.scalar .text)
      |>.withProperty "home" (.object "Catalog")]
  mapping := Declarations.empty
    |>.update "Catalog" (fun d => d.asIndexed
      |>.reading "ranks[keys].name"
      |>.reading "ranks[values].name")
    |>.inverse "Catalog" "ranks[keys]" "Product" "home"

def rankingsSchema : Schema :=
  (Schema.ofDefinitions rankings.types).value (by decide +kernel)

def rankingsMapping : Mapping rankingsSchema :=
  (Mapping.compile rankingsSchema rankings.mapping).value (by decide +kernel)

theorem compile_rankings : Mapping.compile rankingsSchema rankings.mapping = .ok rankingsMapping :=
  Except.eq_ok_value _

variable {schema : Schema}

/-- Two products and a catalog, which is the home of its keys. -/
def fillRankings : Edit schema Unit := do
  let first ← create "Product" [("sku", .integer 1)]
  let second ← create "Product" [("sku", .integer 2)]
  let catalog ← create "Catalog" [("code", .text "C"), ("ranks", .map [(.ref first, .ref second)])]
  assign first "home" (.ref catalog)

def ranked : ObjectStore rankingsSchema :=
  ((fillRankings.run (.empty rankingsSchema)).value (by decide +kernel)).2

/-- All that is declared about documents. -/
def catalogPart : PartDecl where
  name := "Catalog"
  indexed := true
  read := ["ranks[keys].name", "ranks[values].name"]
  embed := []
  other := []

/-- The keys of a ranking, or its values. -/
def ranksStep (extractor : Extractor) : TypedStep where
  owner := "Catalog"
  property := "ranks"
  extractors := [extractor]
  cast := none
  element := .object "Product"

def productName : TypedStep where
  owner := "Product"
  property := "name"
  extractors := []
  cast := none
  element := .scalar .text

/-- The association from a catalog to the keys or the values of its ranking. -/
def ranksSegment (extractor : Extractor) : Segment where
  owner := "Catalog"
  steps := [ranksStep extractor]
  target := some "Product"

def productNameSegment : Segment where
  owner := "Product"
  steps := [productName]
  target := none

/-- The only pair of paths declared. -/
def ranksPair : InversePair where
  owner := "Catalog"
  path := "ranks[keys]"
  inverseOwner := "Product"
  inversePath := "home"

def homeStep : TypedStep where
  owner := "Product"
  property := "home"
  extractors := []
  cast := none
  element := .object "Catalog"

/-- The way back along it. -/
def homeLink : Backlink where
  startCast := none
  steps := [homeStep]
  endCast := none
  land := "Catalog"

end IndexSync.Sample
