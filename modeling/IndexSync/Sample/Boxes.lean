import IndexSync.Sample.Couple

/-!
# Boxes

Boxes name an identifier that is none of their properties.  They hold a set of tags and a
weight.

- `Sample.boxes` — the definition.
- `Sample.boxed` — a store with one box, of which nothing is set.
- `Sample.tagged` — a store with one box that has a tag.
-/

namespace IndexSync.Sample

def boxes : List TypeDef := [
  { TypeDef.entity "Box" with kind := .entity (some "code") }
    |>.withProperty "tags" (.set (.scalar .text))
    |>.withProperty "weight" (.scalar .integer)]

def boxesSchema : Schema :=
  (Schema.ofDefinitions boxes).value (by decide +kernel)

def boxed : ObjectStore boxesSchema :=
  ((create "Box" []).run (.empty boxesSchema)).value (by decide +kernel) |>.2

def tagged : ObjectStore boxesSchema :=
  ((create "Box" [("tags", .set [.text "red"])]).run (.empty boxesSchema)).value
    (by decide +kernel) |>.2

end IndexSync.Sample
