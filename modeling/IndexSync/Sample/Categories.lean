import IndexSync.Sample.Building

/-!
# A tree of categories

Every category embeds the document of its parent, so a change spreads to all
descendants.

- `categories` — the mapping.
- `fillForest`, `fillChain` — trees of a given shape.
-/

namespace IndexSync.Sample

def categories : MappingSource where
  types := [
    (TypeDef.entity "Category").withId "id" (.scalar .integer)
      |>.withProperty "name" (.scalar .text)
      |>.withProperty "parent" (.object "Category")
      |>.withProperty "children" (.list (.object "Category"))]
  mapping := Declarations.empty
    |>.update "Category" (fun d => d.asIndexed.reading "name" |>.embedding "parent")
    |>.inverse "Category" "parent" "Category" "children"

variable {schema : Schema}

/-- A category, which its parent knows of. -/
def addCategory (id : Nat) (parent : Option ObjectId) : Edit schema ObjectId := do
  let category ← create "Category"
    [("id", .integer id), ("name", .text ("category " ++ toString id)), ("parent", refTo parent)]
  match parent with
  | none => return category
  | some parent =>
    append parent "children" (.ref category)
    return category

/-- How a forest is to be grown. -/
structure ForestPlan where
  /-- The place of the parent of each category, among those before it. -/
  parents : List (Option Nat)
  /-- An ancestor that is made a child of one of its descendants. -/
  backEdge : Option (Nat × Nat)

/-- The categories of a forest, in order. -/
def fillForest (plan : ForestPlan) : Edit schema (List ObjectId) := do
  let ids ← plan.parents.foldlM (fun (ids : Array ObjectId) parent => do
    return ids.push (← addCategory ids.size (parent.bind (ids[·]?)))) #[]
  match plan.backEdge with
  | none => return ids.toList
  | some (ancestor, descendant) =>
    match ids[ancestor]?, ids[descendant]? with
    | some ancestor, some descendant =>
      assign ancestor "parent" (.ref descendant)
      append descendant "children" (.ref ancestor)
      return ids.toList
    | _, _ => return ids.toList

/-- Categories each of which is the parent of the next. -/
def fillChain (length : Nat) : Edit schema (List ObjectId) :=
  fillForest
    { parents := (List.range length).map fun i => if i = 0 then none else some (i - 1)
      backEdge := none }

end IndexSync.Sample
