import IndexSync.EntityRef
import IndexSync.Proofs.Leads
import IndexSync.Proofs.Schema.Inheritance
import IndexSync.Proofs.Store.Reading
import IndexSync.Proofs.Success

/-!
# Values of declared types

- `Schema.Agrees`, `Schema.Identifies` — what a schema may promise beyond being
  accepted: one type for each property name along inheritance, and identifiers that
  are properties.
- `Value.Conforms` — a value of a declared type; null is one of every type.
- `ObjectStore.Conforms` — every property holds a value of its type.
- `ObjectStore.Conforms.exists_read`, `ObjectStore.exists_reference` — whatever is
  declared can be read, and live objects have references.
-/

namespace IndexSync

variable {schema m : Schema}

/-! ## Promises of a schema -/

namespace Schema

/-- A type and whatever it inherits from agree on the types of the properties they
share. -/
def Agrees (m : Schema) : Prop :=
  ∀ {sub sup : TypeName} {name : String} {p q : PropertyDef}, m.fits sub sup = true →
    m.property? sub name = some p → m.property? sup name = some q → p.type = q.type

/-- Every declared identifier is a property of its type. -/
def Identifies (m : Schema) : Prop :=
  ∀ d ∈ m.definitions, ∀ name ∈ d.idProperty?, (m.property? d.name name).isSome = true

theorem declares_of_property? {owner : TypeName} {name : String} {p : PropertyDef}
    (h : m.property? owner name = some p) : m.declares owner = true := by
  rw [declares]
  cases hfind : m.find? owner with
  | none => simp [property?, properties, hfind] at h
  | some t => rfl

theorem mem_definitions_of_definition? {name : TypeName} {d : TypeDef}
    (h : m.definition? name = some d) : d ∈ m.definitions ∧ d.name = name := by
  obtain ⟨t, ht, rfl⟩ := Option.map_eq_some_iff.mp h
  refine ⟨List.mem_map_of_mem (List.mem_of_find?_eq_some ht), ?_⟩
  have hname := List.find?_some ht
  exact of_decide_eq_true hname

/-- The identifier of a type, own or inherited, is one of its properties. -/
theorem Identifies.property? (hm : m.Coherent) (h : m.Identifies) {type : TypeName}
    {name : String} (hid : m.idProperty? type = some name) :
    (m.property? type name).isSome = true := by
  obtain ⟨sup, hsup, hbind⟩ := List.exists_of_findSome?_eq_some hid
  obtain ⟨d, hd, hname⟩ := Option.bind_eq_some_iff.mp hbind
  obtain ⟨hmem, rfl⟩ := mem_definitions_of_definition? hd
  have hfits : m.fits type d.name = true := decide_eq_true hsup
  exact hm.has_property hfits (h d hmem name hname)

end Schema

/-! ## Conforming values -/

/-- A value of a declared type.  References are to live objects that fit. -/
inductive Value.Conforms (s : ObjectStore schema) : PropertyType → Value → Prop
  | null {type : PropertyType} : Conforms s type .null
  | bool {b : Bool} : Conforms s (.scalar .bool) (.bool b)
  | integer {n : Int} : Conforms s (.scalar .integer) (.integer n)
  | text {t : String} : Conforms s (.scalar .text) (.text t)
  | bytes {bs : List UInt8} : Conforms s (.scalar .bytes) (.bytes bs)
  | ref {name : TypeName} {o : ObjectId} : s.IsA o name → Conforms s (.object name) (.ref o)
  | list {element : PropertyType} {items : List Value} : (∀ v ∈ items, Conforms s element v) →
      Conforms s (.list element) (.list items)
  | set {element : PropertyType} {items : List Value} : (∀ v ∈ items, Conforms s element v) →
      Conforms s (.set element) (.set items)
  | array {element : PropertyType} {items : List Value} : (∀ v ∈ items, Conforms s element v) →
      Conforms s (.array element) (.array items)
  | map {key value : PropertyType} {entries : List (Value × Value)} :
      (∀ e ∈ entries, Conforms s key e.1) → (∀ e ∈ entries, Conforms s value e.2) →
      Conforms s (.map key value) (.map entries)
  | optional {element : PropertyType} {inner : Option Value} :
      (∀ v ∈ inner, Conforms s element v) → Conforms s (.optional element) (.optional inner)

namespace Value

variable {s : ObjectStore schema} {v : Value}

/-- A value of an object type is a reference, unless it is null. -/
theorem Conforms.exists_ref {name : TypeName} (h : v.Conforms s (.object name))
    (hnull : v.isNull = false) : ∃ o, v = .ref o ∧ s.IsA o name := by
  cases h with
  | null => cases hnull
  | ref ho => exact ⟨_, rfl, ho⟩

/-- What can be extracted by type can be extracted, and the elements are of the type
expected. -/
theorem Conforms.exists_elements {type element : PropertyType} {e : Extractor}
    (h : v.Conforms s type) (he : type.element? e = some element) :
    ∃ items, e.elements? v = some items ∧ ∀ u ∈ items, u.Conforms s element := by
  cases h with
  | null =>
      refine ⟨[], ?_, nofun⟩
      cases e <;> rfl
  | bool | integer | text | bytes | ref => cases e <;> cases he
  | list hitems =>
      cases e <;> cases he
      exact ⟨_, rfl, hitems⟩
  | set hitems =>
      cases e <;> cases he
      exact ⟨_, rfl, hitems⟩
  | array hitems =>
      cases e <;> cases he
      exact ⟨_, rfl, hitems⟩
  | @map key value entries hkeys hvalues =>
      cases e <;> cases he
      · refine ⟨_, rfl, fun u hu => ?_⟩
        obtain ⟨entry, hentry, rfl⟩ := List.mem_map.mp hu
        exact hvalues entry hentry
      · refine ⟨_, rfl, fun u hu => ?_⟩
        obtain ⟨entry, hentry, rfl⟩ := List.mem_map.mp hu
        exact hkeys entry hentry
  | optional hinner =>
      cases e <;> cases he
      exact ⟨_, rfl, fun u hu => hinner u (Option.mem_toList.mp hu)⟩

end Value

/-! ## Conforming stores -/

namespace ObjectStore

variable {s : ObjectStore schema} {o : ObjectId}

/-- Every property that can be read holds a value of its declared type. -/
def Conforms (s : ObjectStore schema) : Prop :=
  ∀ {o : ObjectId} {type : TypeName} {name : String} {p : PropertyDef} {v : Value},
    s.runtimeType o = .ok type → schema.property? type name = some p → s.read o name = .ok v →
      v.Conforms s p.type

/-- A property declared on a type can be read on all its instances, and holds a value of
the type declared there. -/
theorem Conforms.exists_read (hs : s.Conforms) (hm : schema.Coherent) (hagree : schema.Agrees)
    {owner : TypeName} {name : String} {p : PropertyDef} (ho : s.IsA o owner)
    (hp : schema.property? owner name = some p) :
    ∃ v, s.read o name = .ok v ∧ v.Conforms s p.type := by
  obtain ⟨type, htype, hfits⟩ := ho
  have hown : (schema.property? type name).isSome = true :=
    hm.has_property hfits (by rw [hp]; rfl)
  obtain ⟨v, hv⟩ := exists_read_of_property? htype hown
  obtain ⟨q, hq⟩ := Option.isSome_iff_exists.mp hown
  refine ⟨v, hv, ?_⟩
  rw [← hagree hfits hq hp]
  exact hs htype hq hv

/-- Live objects have references. -/
theorem exists_reference (hm : schema.Coherent) (hid : schema.Identifies) {type : TypeName}
    (ho : s.runtimeType o = .ok type) : ∃ r, s.reference o = .ok r :=
  (exists_reference_iff ho).mpr fun _ hname => hid.property? hm hname

end ObjectStore

end IndexSync
