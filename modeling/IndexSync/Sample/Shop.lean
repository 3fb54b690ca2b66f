import IndexSync.Sample.Building

/-!
# A shop

Customers and suppliers are parties, and an order belongs to a party.  The
document of a customer tells of its orders, of its address, which is embedded,
and of the invoices that it pays; the document of an order tells the tier of a
customer.

- `shop` — the mapping.
- `fillShop` — customers, suppliers and the orders between them.
-/

namespace IndexSync.Sample

def shop : MappingSource where
  types := [
    (TypeDef.entity "Party").asAbstract
      |>.withId "id" (.scalar .text)
      |>.withProperty "name" (.scalar .text),
    ((TypeDef.entity "Customer").extending "Party")
      |>.withProperty "tier" (.scalar .text)
      |>.withProperty "orders" (.list (.object "Order"))
      |>.withProperty "address" (.object "Address"),
    ((TypeDef.entity "Supplier").extending "Party")
      |>.withProperty "rating" (.scalar .integer),
    (TypeDef.entity "Order").withId "id" (.scalar .integer)
      |>.withProperty "customer" (.object "Party")
      |>.withProperty "total" (.scalar .integer)
      |>.withProperty "shippingNote" (.scalar .text)
      |>.withProperty "lines" (.list (.object "OrderLine")),
    (TypeDef.embeddable "OrderLine").withProperty "sku" (.scalar .text)
      |>.withProperty "quantity" (.scalar .integer),
    (TypeDef.embeddable "Address").withProperty "street" (.scalar .text)
      |>.withProperty "city" (.scalar .text),
    (TypeDef.entity "Invoice").withId "id" (.scalar .integer)
      |>.withProperty "payer" (.object "Customer")
      |>.withProperty "amount" (.scalar .integer)]
  mapping := Declarations.empty
    |>.update "Customer" (fun d => d.asIndexed
      |>.reading "name"
      |>.reading "tier"
      |>.reading "orders[].total"
      |>.reading "orders[].lines[].sku"
      |>.embedding "address"
      |>.fromOther "Invoice" "payer" ["amount"])
    |>.update "Address" (fun d => d.reading "city")
    |>.update "Order" (fun d => d.asIndexed.reading "customer<Customer>.tier")
    |>.inverse "Customer" "orders" "Order" "customer"

/-- Whom an order belongs to; customers and suppliers are counted from zero. -/
inductive Owner where
  | nobody
  | customer (place : Nat)
  | supplier (place : Nat)
deriving DecidableEq

/-- How a shop is to be filled. -/
structure ShopPlan where
  customers : Nat
  suppliers : Nat
  /-- The owner and total of every order. -/
  orders : List (Owner × Int)

/-- The ids of what a shop was filled with. -/
structure ShopObjects where
  customers : List ObjectId
  suppliers : List ObjectId
  orders : List ObjectId

variable {schema : Schema}

/-- An order, which its owner knows of if it is a customer. -/
def addOrder (id : Nat) (owner : Option ObjectId) (total : Int) : Edit schema ObjectId := do
  let order ← create "Order"
    [("id", .integer id), ("customer", refTo owner), ("total", .integer total)]
  match owner with
  | none => return order
  | some party =>
    if (← (← get).runtimeType party) = "Customer" then append party "orders" (.ref order)
    return order

/-- The parties are named by a letter and their place, orders by their place. -/
def fillShop (plan : ShopPlan) : Edit schema ShopObjects := do
  let customers ← (List.range plan.customers).mapM fun i =>
    create "Customer" [("id", .text ("C" ++ toString i))]
  let suppliers ← (List.range plan.suppliers).mapM fun i =>
    create "Supplier" [("id", .text ("S" ++ toString i))]
  let party : Owner → Option ObjectId
    | .nobody => none
    | .customer place => customers[place]?
    | .supplier place => suppliers[place]?
  let orders ← plan.orders.zipIdx.mapM fun ((owner, total), i) => addOrder i (party owner) total
  return { customers, suppliers, orders }

end IndexSync.Sample
