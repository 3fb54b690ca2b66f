import IndexSync.Sample.Couple

/-!
# Shelves

The document of a shelf embeds its items, and books, the only kind of item, embed their
authors.  The fans of an author show the author as well, but no document tells of fans.

- `Sample.shelves` — the mapping.
- `Sample.shelved` — a store where shelf 1 holds book 2 by author 3, whose fan is 4.
-/

namespace IndexSync.Sample

def shelves : MappingSource where
  types := [
    (TypeDef.entity "Shelf").withId "mark" (.scalar .text)
      |>.withProperty "items" (.list (.object "Item")),
    (TypeDef.entity "Item").asAbstract
      |>.withId "code" (.scalar .integer)
      |>.withProperty "shelf" (.object "Shelf"),
    (TypeDef.entity "Book").extending "Item"
      |>.withProperty "author" (.object "Author"),
    (TypeDef.entity "Author").withId "name" (.scalar .text)
      |>.withProperty "books" (.list (.object "Book"))
      |>.withProperty "fans" (.list (.object "Fan")),
    (TypeDef.entity "Fan").withId "nick" (.scalar .text)
      |>.withProperty "idol" (.object "Author")]
  mapping := Declarations.empty
    |>.update "Shelf" (fun d => d.asIndexed.embedding "items")
    |>.update "Book" (fun d => d.embedding "author")
    |>.update "Author" (fun d => d.reading "name")
    |>.update "Fan" (fun d => d.embedding "idol")
    |>.inverse "Shelf" "items" "Item" "shelf"
    |>.inverse "Book" "author" "Author" "books"
    |>.inverse "Fan" "idol" "Author" "fans"

def shelvesSchema : Schema :=
  (Schema.ofDefinitions shelves.types).value (by decide +kernel)

def shelvesMapping : Mapping shelvesSchema :=
  (Mapping.compile shelvesSchema shelves.mapping).value (by decide +kernel)

theorem compile_shelves : Mapping.compile shelvesSchema shelves.mapping = .ok shelvesMapping :=
  Except.eq_ok_value _

/-- All that the declarations amount to, the fans included. -/
def shelvesFacts : Facts :=
  (Mapping.facts shelvesSchema shelves.mapping).value (by decide +kernel)

def shelvesEngine : Engine shelvesSchema :=
  (Engine.start shelvesSchema shelves.mapping {}).value (by decide +kernel)

variable {schema : Schema}

/-- A shelf with a book, its author and a fan. -/
def fillShelf : Edit schema Unit := do
  let shelf ← create "Shelf" [("mark", .text "S")]
  let book ← create "Book" [("code", .integer 1), ("shelf", .ref shelf)]
  let author ← create "Author" [("name", .text "A")]
  let fan ← create "Fan" [("nick", .text "F"), ("idol", .ref author)]
  append shelf "items" (.ref book)
  append author "books" (.ref book)
  append author "fans" (.ref fan)
  assign book "author" (.ref author)

def shelved : ObjectStore shelvesSchema :=
  ((fillShelf.run (.empty shelvesSchema)).value (by decide +kernel)).2

end IndexSync.Sample
