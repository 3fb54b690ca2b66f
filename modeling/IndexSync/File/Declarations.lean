import IndexSync.File.Members
import IndexSync.Declarations

/-!
# Declarations as JSON

    {"types": [{"name": "Customer", "indexed": true, "read": ["name"], "embed": [],
       "other": [{"type": "Invoice", "inverse_path": "payer", "used": ["amount"]}]}],
     "inverses": [{"owner": "Customer", "path": "orders",
       "inverse_owner": "Order", "inverse_path": "customer"}]}

Lists and `indexed` may be left out.  Writing spells everything out.
-/

namespace IndexSync

open Json.Members

namespace Dependency

def ofJson? (j : Json) : Option Dependency := do
  let ms ← j.asObject?
  return { type := ← required? ms "type" Json.asString?
           inversePath := ← required? ms "inverse_path" Json.asString?
           used := ← defaulted? ms "used" [] Json.strings? }

def toJson (o : Dependency) : Json :=
  .object [("type", .string o.type), ("inverse_path", .string o.inversePath),
    ("used", .strings o.used)]

end Dependency

namespace PartDecl

def ofJson? (j : Json) : Option PartDecl := do
  let ms ← j.asObject?
  return { name := ← required? ms "name" Json.asString?
           indexed := ← defaulted? ms "indexed" false Json.asBool?
           read := ← defaulted? ms "read" [] Json.strings?
           embed := ← defaulted? ms "embed" [] Json.strings?
           other := ← defaulted? ms "other" [] (Json.list? Dependency.ofJson?) }

def toJson (d : PartDecl) : Json :=
  .object [("name", .string d.name), ("indexed", .bool d.indexed), ("read", .strings d.read),
    ("embed", .strings d.embed), ("other", .array (d.other.map (·.toJson)))]

end PartDecl

namespace InversePair

def ofJson? (j : Json) : Option InversePair := do
  let ms ← j.asObject?
  return { owner := ← required? ms "owner" Json.asString?
           path := ← required? ms "path" Json.asString?
           inverseOwner := ← required? ms "inverse_owner" Json.asString?
           inversePath := ← required? ms "inverse_path" Json.asString? }

def toJson (d : InversePair) : Json :=
  .object [("owner", .string d.owner), ("path", .string d.path),
    ("inverse_owner", .string d.inverseOwner), ("inverse_path", .string d.inversePath)]

end InversePair

namespace Declarations

def ofJson? (j : Json) : Option Declarations := do
  let ms ← j.asObject?
  return { types := ← defaulted? ms "types" [] (Json.list? PartDecl.ofJson?)
           inverses := ← defaulted? ms "inverses" [] (Json.list? InversePair.ofJson?) }

def toJson (ds : Declarations) : Json :=
  .object [("types", .array (ds.types.map (·.toJson))),
    ("inverses", .array (ds.inverses.map (·.toJson)))]

end Declarations

end IndexSync
