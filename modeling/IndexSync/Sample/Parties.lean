import IndexSync.Sample.Couple

/-!
# Parties

Customers and suppliers are parties with a name.  Orders embed the customer, so a new name of
a party goes into the orders of that party, and only customers have orders.

- `Sample.parties` — the mapping.
- `Sample.supplierTree`, `Sample.customerTree` — the trees of the two kinds of parties.
-/

namespace IndexSync.Sample

def parties : MappingSource where
  types := [
    ((TypeDef.entity "Party").withId "code" (.scalar .text)).asAbstract
      |>.withProperty "name" (.scalar .text),
    ((TypeDef.entity "Customer").extending "Party")
      |>.withProperty "orders" (.list (.object "Order")),
    (TypeDef.entity "Supplier").extending "Party",
    (TypeDef.entity "Order").withId "number" (.scalar .integer)
      |>.withProperty "customer" (.object "Customer")]
  mapping := Declarations.empty
    |>.update "Order" (fun d => d.asIndexed.embedding "customer")
    |>.update "Party" (fun d => d.reading "name")
    |>.inverse "Order" "customer" "Customer" "orders"

def partiesSchema : Schema :=
  (Schema.ofDefinitions parties.types).value (by decide +kernel)

def partiesMapping : Mapping partiesSchema :=
  (Mapping.compile partiesSchema parties.mapping).value (by decide +kernel)

theorem compile_parties : Mapping.compile partiesSchema parties.mapping = .ok partiesMapping :=
  Except.eq_ok_value _

def customerTree : ChangeTree :=
  (ChangeTree.build partiesMapping true "Customer").value (by decide +kernel)

def supplierTree : ChangeTree :=
  (ChangeTree.build partiesMapping true "Supplier").value (by decide +kernel)

end IndexSync.Sample
