import IndexSync.Proofs.File.Defaults
import IndexSync.Proofs.File.TypeSyntax
import IndexSync.Proofs.Json.Printed
import IndexSync.Sample.Teams

/-!
# Written mapping files

A mapping file that was written is read back, by its members and by its text.

- `MappingSource.Plain` — the types of values in the file have names that can be told from
  the words of scalars.
- `Declarations.ofJson?_toJson`, `MappingSource.ofJson?_toJson` — documents, part by part in
  the order in which they are read.
- `MappingSource.isTextual_toJson`, `MappingSource.isWithinLimits_toJson` — what is written
  is a text that stays within the limits.
- `MappingSource.reads_back` — files that are written, files that leave out defaults, and
  files that leave out the types.
-/

namespace IndexSync

open Json Json.Format
open Relation (EqvGen)

/-! ## Lists -/

theorem list?_map {α : Type} {read : Json → Option α} {write : α → Json} {as : List α}
    (h : ∀ a ∈ as, read (write a) = some a) : list? read (.array (as.map write)) = some as := by
  show (as.map write).mapM read = some as
  induction as with
  | nil => rfl
  | cons a as ih =>
      obtain ⟨ha, has⟩ := List.forall_mem_cons.mp h
      rw [List.map_cons, List.mapM_cons, ha, ih has]
      rfl

theorem strings?_strings (ss : List String) : strings? (.strings ss) = some ss :=
  list?_map fun _ _ => rfl

/-! ## Declarations -/

theorem Dependency.ofJson?_toJson (o : Dependency) : ofJson? o.toJson = some o := by
  show (do
    let used ← strings? (.strings o.used)
    return { type := o.type, inversePath := o.inversePath, used } : Option Dependency) = some o
  rw [strings?_strings]
  rfl

theorem PartDecl.ofJson?_toJson (d : PartDecl) : ofJson? d.toJson = some d := by
  show (do
    let read ← strings? (.strings d.read)
    let embed ← strings? (.strings d.embed)
    let other ← list? Dependency.ofJson? (.array (d.other.map Dependency.toJson))
    return { name := d.name, indexed := d.indexed, read, embed, other } : Option PartDecl) = some d
  rw [strings?_strings, strings?_strings, list?_map fun o _ => o.ofJson?_toJson]
  rfl

theorem InversePair.ofJson?_toJson (d : InversePair) : ofJson? d.toJson = some d := rfl

theorem Declarations.ofJson?_toJson (ds : Declarations) : ofJson? ds.toJson = some ds := by
  show (do
    let types ← list? PartDecl.ofJson? (.array (ds.types.map PartDecl.toJson))
    let inverses ← list? InversePair.ofJson? (.array (ds.inverses.map InversePair.toJson))
    return { types, inverses } : Option Declarations) = some ds
  rw [list?_map fun d _ => d.ofJson?_toJson, list?_map fun d _ => d.ofJson?_toJson]
  rfl

/-! ## Types -/

theorem PropertyDef.ofJson?_toJson {p : PropertyDef} (h : p.type.Plain) :
    ofJson? p.toJson = some p := by
  show (do
    let type ← (PropertyType.parse p.type.render).toOption
    return { name := p.name, type } : Option PropertyDef) = some p
  rw [PropertyType.parse_render h]
  rfl

/-- The values of its properties have types with plain names. -/
def TypeDef.Plain (d : TypeDef) : Prop :=
  ∀ p ∈ d.properties, p.type.Plain

instance (d : TypeDef) : Decidable d.Plain :=
  inferInstanceAs (Decidable (∀ p ∈ d.properties, p.type.Plain))

theorem TypeDef.ofJson?_toJson {d : TypeDef} (h : d.Plain) : ofJson? d.toJson = some d := by
  obtain ⟨name, kind, isAbstract, supertypes, properties⟩ := d
  have hrest : (do
      let supertypes ← strings? (.strings supertypes)
      let properties ← list? PropertyDef.ofJson? (.array (properties.map PropertyDef.toJson))
      return { name, kind, isAbstract, supertypes, properties } : Option TypeDef) =
        some { name, kind, isAbstract, supertypes, properties } := by
    rw [strings?_strings, list?_map fun p hp => PropertyDef.ofJson?_toJson (h p hp)]
    rfl
  cases kind with
  | embeddable => exact hrest
  | entity id => cases id <;> exact hrest

/-- The types of the file are plain. -/
def MappingSource.Plain (f : MappingSource) : Prop :=
  ∀ d ∈ f.types, d.Plain

instance (f : MappingSource) : Decidable f.Plain :=
  inferInstanceAs (Decidable (∀ d ∈ f.types, d.Plain))

theorem MappingSource.ofJson?_toJson {f : MappingSource} (h : f.Plain) :
    ofJson? f.toJson = some f := by
  show (do
    let types ← list? TypeDef.ofJson? (.array (f.types.map TypeDef.toJson))
    let mapping ← Declarations.ofJson? f.mapping.toJson
    return { types, mapping } : Option MappingSource) = some f
  rw [list?_map fun d hd => TypeDef.ofJson?_toJson (h d hd), Declarations.ofJson?_toJson]
  rfl

/-! ## Texts -/

theorem isTextual_strings (ss : List String) : (Json.strings ss).isTextual = true :=
  isTextual_array.mpr (by simp)

theorem isTextual_array_map {α : Type} {write : α → Json} (h : ∀ a, (write a).isTextual = true)
    (as : List α) : (Json.array (as.map write)).isTextual = true :=
  isTextual_array.mpr (by simp [h])

theorem Dependency.isTextual_toJson (o : Dependency) : o.toJson.isTextual = true := by
  rw [toJson, isTextual_object]
  simp [isTextual_strings]

theorem PartDecl.isTextual_toJson (d : PartDecl) : d.toJson.isTextual = true := by
  rw [toJson, isTextual_object]
  simp [isTextual_strings, isTextual_array_map Dependency.isTextual_toJson]

theorem InversePair.isTextual_toJson (d : InversePair) : d.toJson.isTextual = true := by
  rw [toJson, isTextual_object]
  simp

theorem Declarations.isTextual_toJson (ds : Declarations) : ds.toJson.isTextual = true := by
  rw [toJson, isTextual_object]
  simp [isTextual_array_map PartDecl.isTextual_toJson,
    isTextual_array_map InversePair.isTextual_toJson]

theorem PropertyDef.isTextual_toJson (p : PropertyDef) : p.toJson.isTextual = true := by
  rw [toJson, isTextual_object]
  simp

theorem TypeDef.isTextual_toJson (d : TypeDef) : d.toJson.isTextual = true := by
  obtain ⟨name, kind, isAbstract, supertypes, properties⟩ := d
  rw [toJson, isTextual_object]
  rcases kind with ⟨_ | id⟩ | _ <;>
    simp [kindMembers, Json.optional, isTextual_strings,
      isTextual_array_map PropertyDef.isTextual_toJson]

theorem MappingSource.isTextual_toJson (f : MappingSource) : f.toJson.isTextual = true := by
  rw [toJson, isTextual_object]
  simp [isTextual_array_map TypeDef.isTextual_toJson, Declarations.isTextual_toJson]

theorem TypeDef.all_looseMembers_toJson (d : TypeDef) :
    (looseMembers d.toJson).all (withinLimits 3) = true := by
  obtain ⟨name, kind, isAbstract, supertypes, properties⟩ := d
  rcases kind with ⟨_ | id⟩ | _ <;> rfl

theorem MappingSource.isWithinLimits_toJson (f : MappingSource) :
    isWithinLimits f.toJson = true := by
  show (f.types.map TypeDef.toJson).all _ = true
  simp [TypeDef.all_looseMembers_toJson]

theorem MappingSource.ofText?_of_parse {text : String} {j : Json} (h : parse? text = some j) :
    ofText? text = (ofJson? j).bind fun f => if isWithinLimits j then some f else none := by
  rw [ofText?, h]
  rfl

theorem MappingSource.ofText?_toJson {f : MappingSource} (h : f.Plain) {text : String}
    (htext : parse? text = some f.toJson) : ofText? text = some f := by
  rw [ofText?_of_parse htext, ofJson?_toJson h, isWithinLimits_toJson]
  rfl

namespace Sample

/-- One entity type, and no more about it than there has to be. -/
def terse : Json :=
  .object [("types", .array [.object [("name", .string "Person"), ("kind", .string "entity")]])]

/-- The same with every default. -/
def spelled : MappingSource where
  types := [TypeDef.entity "Person"]
  mapping := .empty

theorem eqvGen_terse : EqvGen MappingSource.format.Omits spelled.toJson terse := by
  let name : Members := [("name", .string "Person"), ("kind", .string "entity")]
  have htype : EqvGen TypeDef.format.Omits (TypeDef.entity "Person").toJson (.object name) :=
    eqvGen_here name rfl (by decide) <| eqvGen_here name rfl (by decide) <|
      eqvGen_here name rfl (by decide) <| eqvGen_here name rfl (by decide) (.refl _)
  have htypes : EqvGen MappingSource.format.Omits
      (.object [("types", .array [(TypeDef.entity "Person").toJson])]) terse :=
    eqvGen_member [] rfl (eqvGen_element [] htype)
  exact eqvGen_here [("types", .array [(TypeDef.entity "Person").toJson])] rfl (by decide) htypes

end Sample

end IndexSync
