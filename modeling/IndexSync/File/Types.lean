import IndexSync.File.Members
import IndexSync.PropertyType.Parser
import IndexSync.TypeDef

/-!
# Type definitions as JSON

    {"name": "Order", "kind": "entity", "id_property": "id", "abstract": false,
     "supertypes": [], "properties": [{"name": "id", "type": "integer"}]}

Name and kind are required, and so are the name and type of a property.  The
kind may also be given by its number, 0 for entities and 1 for embeddables, and
only entities have an `id_property`.  Writing spells everything out.
-/

namespace IndexSync

namespace PropertyDef

def ofJson? (j : Json) : Option PropertyDef := do
  let ms ← j.asObject?
  let name ← Json.Members.required? ms "name" Json.asString?
  let text ← Json.Members.required? ms "type" Json.asString?
  return { name, type := ← (PropertyType.parse text).toOption }

def toJson (p : PropertyDef) : Json :=
  .object [("name", .string p.name), ("type", .string p.type.render)]

end PropertyDef

namespace TypeDef

/-- Whether a kind is that of an entity. -/
def readKind? : Json → Option Bool
  | .string "entity" => some true
  | .string "embeddable" => some false
  | .number (.integer 0) => some true
  | .number (.integer 1) => some false
  | _ => none

/-- A name, or null for none. -/
def readIdProperty? : Json → Option (Option String)
  | .null => some none
  | .string name => some (some name)
  | _ => none

def ofJson? (j : Json) : Option TypeDef := do
  let ms ← j.asObject?
  let name ← Json.Members.required? ms "name" Json.asString?
  let isEntity ← Json.Members.required? ms "kind" readKind?
  let kind ← if isEntity then
      TypeSort.entity <$> Json.Members.defaulted? ms "id_property" none readIdProperty?
    else some TypeSort.embeddable
  let isAbstract ← Json.Members.defaulted? ms "abstract" false Json.asBool?
  let supertypes ← Json.Members.defaulted? ms "supertypes" [] Json.strings?
  let properties ← Json.Members.defaulted? ms "properties" [] (Json.list? PropertyDef.ofJson?)
  return { name, kind, isAbstract, supertypes, properties }

def kindMembers : TypeSort → Json.Members
  | .entity id => [("kind", .string "entity"), ("id_property", .optional id)]
  | .embeddable => [("kind", .string "embeddable")]

def toJson (d : TypeDef) : Json :=
  .object ([("name", .string d.name)] ++ kindMembers d.kind ++
    [("abstract", .bool d.isAbstract), ("supertypes", .strings d.supertypes),
      ("properties", .array (d.properties.map (·.toJson)))])

/-- The members that are read whole before the kind is known. -/
def looseMembers (j : Json) : List Json :=
  ((j.asObject?.getD []).filter fun m =>
    m.1 ∉ ["name", "abstract", "supertypes", "properties"]).map (·.2)

end TypeDef

end IndexSync
