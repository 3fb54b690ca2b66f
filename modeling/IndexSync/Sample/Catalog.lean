import IndexSync.Sample.Building

/-!
# Catalogs of products

One association for every kind of container, on both sides:

    byCode : map<text, Product>      listedIn : array<Catalog>
    best : optional<Product>         featuredIn : set<Catalog>
    items : list<Product>            byRegion : map<text, Catalog>
    ranks : map<Product, integer>    home : optional<Catalog>
-/

namespace IndexSync.Sample

def catalog : MappingSource where
  types := [
    (TypeDef.entity "Catalog").withId "code" (.scalar .text)
      |>.withProperty "byCode" (.map (.scalar .text) (.object "Product"))
      |>.withProperty "best" (.optional (.object "Product"))
      |>.withProperty "items" (.list (.object "Product"))
      |>.withProperty "ranks" (.map (.object "Product") (.scalar .integer)),
    (TypeDef.entity "Product").withId "sku" (.scalar .integer)
      |>.withProperty "price" (.scalar .integer)
      |>.withProperty "name" (.scalar .text)
      |>.withProperty "stock" (.scalar .integer)
      |>.withProperty "label" (.scalar .text)
      |>.withProperty "listedIn" (.array (.object "Catalog"))
      |>.withProperty "featuredIn" (.set (.object "Catalog"))
      |>.withProperty "byRegion" (.map (.scalar .text) (.object "Catalog"))
      |>.withProperty "home" (.optional (.object "Catalog"))]
  mapping := Declarations.empty
    |>.update "Catalog" (fun d => d.asIndexed
      |>.reading "byCode[values].price"
      |>.reading "best[].name"
      |>.reading "items[].stock"
      |>.reading "ranks[keys].label")
    |>.inverse "Catalog" "byCode" "Product" "listedIn"
    |>.inverse "Catalog" "best" "Product" "featuredIn"
    |>.inverse "Catalog" "items" "Product" "byRegion"
    |>.inverse "Catalog" "ranks[keys]" "Product" "home"

end IndexSync.Sample
