import Mathlib.Order.Bounds.Basic
import IndexSync.File.Read
import IndexSync.Proofs.Json.Range
import IndexSync.Proofs.Store.Atomicity

/-!
# Loading objects

An object file is loaded exactly if all of its records are valid and no id is repeated, and
the order of the records does not matter.

- `Json.Means`, `Value.ofJson_eq_ok` — the value that a document stands for, by induction on it.
- `ObjectEntry.Valid`, `ObjectEntry.Describes` — records that can be entered, and what they
  say about an object.
- `ObjectStore.exists_enter_iff`, `ObjectStore.get?_of_enter` — one record.
- `ObjectStore.exists_enterAll_iff`, `ObjectStore.get?_of_enterAll` — all records, by induction
  on these.
- `ObjectSource.loads_exactly` — whole files.
-/

namespace IndexSync

/-! ## Values -/

/-- The value that a document in normal form stands for. -/
inductive Json.Means : Json → Value → Prop
  | null : Means .null .null
  | bool (b : Bool) : Means (.bool b) (.bool b)
  | integer {n : Int} : -2 ^ 63 ≤ n → n < 2 ^ 63 → Means (.integer n) (.integer n)
  | text (s : String) : Means (.string s) (.text s)
  | list {items : List Json} {values : List Value} : List.Forall₂ Means items values →
      Means (.array items) (.list values)
  | reference {id : ObjectId} : id < 2 ^ 64 → Means (.object [("$ref", .nat id)]) (.ref id)

namespace Value

theorem ofJsonAll_eq_mapM (items : List Json) : ofJson.ofJsonAll items = items.mapM ofJson := by
  induction items with
  | nil => rfl
  | cons j rest ih => rw [ofJson.ofJsonAll, ih, List.mapM_cons]

theorem fitsSigned_iff {n : Int} : fitsSigned n = true ↔ -2 ^ 63 ≤ n ∧ n < 2 ^ 63 := by
  rw [fitsSigned, Bool.and_eq_true, decide_eq_true_iff, decide_eq_true_iff]
  omega

theorem ofJson_integer_eq_ok {n : Int} {v : Value} :
    ofJson (.number (.integer n)) = .ok v ↔ -2 ^ 63 ≤ n ∧ n < 2 ^ 63 ∧ v = .integer n := by
  rw [ofJson, ← and_assoc, ← fitsSigned_iff]
  cases fitsSigned n <;> simp [eq_comm]

theorem asNat?_eq_some {j : Json} {n : Nat} : j.asNat? = some n ↔ j = .nat n := by
  constructor
  · intro h
    unfold Json.asNat? at h
    split at h
    · cases h
      rfl
    · cases h
  · rintro rfl
    rfl

theorem ofJson_object_eq_ok {members : List (String × Json)} {v : Value} :
    ofJson (.object members) = .ok v ↔ ∃ id, members = [("$ref", .nat id)] ∧ v = .ref id := by
  constructor
  · intro h
    unfold ofJson at h
    split at h
    case h_7 target heq =>
      cases heq
      split at h
      · rename_i id hid
        cases h
        cases asNat?_eq_some.mp hid
        exact ⟨id, rfl, rfl⟩
      · cases h
    case h_8 => cases h
    all_goals
      rename_i heq
      cases heq
  · rintro ⟨id, rfl, rfl⟩
    rfl

/-- A document is converted to the value that it stands for, if there is one. -/
theorem ofJson_eq_ok {j : Json} {v : Value} (h : j.InRange) : ofJson j = .ok v ↔ j.Means v := by
  induction j using Json.induction generalizing v with
  | null =>
      constructor
      · rintro ⟨⟩
        exact .null
      · rintro ⟨⟩
        rfl
  | bool b =>
      constructor
      · rintro ⟨⟩
        exact .bool b
      · rintro ⟨⟩
        rfl
  | number n =>
      cases n with
      | integer n =>
          rw [ofJson_integer_eq_ok]
          constructor
          · rintro ⟨hlow, hhigh, rfl⟩
            exact .integer hlow hhigh
          · intro hmeans
            cases hmeans with
            | integer hlow hhigh => exact ⟨hlow, hhigh, rfl⟩
      | real x => exact ⟨nofun, nofun⟩
  | string s =>
      constructor
      · rintro ⟨⟩
        exact .text s
      · rintro ⟨⟩
        rfl
  | array items ih =>
      have hitems : ∀ values, ofJson.ofJsonAll items = .ok values ↔
          List.Forall₂ Json.Means items values := by
        intro values
        rw [ofJsonAll_eq_mapM, List.mapM_eq_ok]
        exact List.forall₂_congr_of_mem fun j hj _ => ih j hj (h.item hj)
      simp only [ofJson, Except.bind_eq_ok, hitems, Except.pure_eq_ok]
      constructor
      · rintro ⟨values, hall, rfl⟩
        exact .list hall
      · intro hmeans
        cases hmeans with
        | list hall => exact ⟨_, hall, rfl⟩
  | object members =>
      rw [ofJson_object_eq_ok]
      constructor
      · rintro ⟨id, rfl, rfl⟩
        cases h.member List.mem_cons_self with
        | integer _ hhigh => exact .reference (Int.ofNat_lt.mp hhigh)
      · intro hmeans
        cases hmeans with
        | @reference id => exact ⟨id, rfl, rfl⟩
  | beyond => exact ⟨nofun, nofun⟩

end Value

/-! ## Records -/

namespace ObjectEntry

/-- What holds of any record that was read: its fields are in normal form. -/
structure Normal (o : ObjectEntry) : Prop where
  nodup : (o.fields.map (·.1)).Nodup
  inRange : ∀ name j, (name, j) ∈ o.fields → j.InRange

/-- The type of the record can have objects, its fields are declared, and all of them stand
for values. -/
structure Valid (defs : List TypeDef) (o : ObjectEntry) : Prop where
  concrete : ∃ d ∈ defs, d.name = o.type ∧ d.isAbstract = false
  declared : ∀ name j, (name, j) ∈ o.fields → Schema.DeclaresProperty defs o.type name
  meaning : ∀ name j, (name, j) ∈ o.fields → ∃ v, j.Means v

/-- The object has the type of the record, and the values of its fields. -/
structure Describes (o : ObjectEntry) (stored : StoredObject) : Prop where
  type : stored.type = o.type
  value : ∀ name v, stored.properties[name]? = some v ↔ ∃ j, (name, j) ∈ o.fields ∧ j.Means v

variable {o : ObjectEntry} {stored stored' : StoredObject}

theorem Describes.functional (h : o.Describes stored) (h' : o.Describes stored') :
    stored = stored' := by
  obtain ⟨type, properties⟩ := stored
  obtain ⟨type', properties'⟩ := stored'
  have htype : type = type' := h.type.trans h'.type.symm
  have hproperties : properties = properties' := by
    refine Std.ExtTreeMap.ext_getElem? fun name => ?_
    exact Option.ext fun v => (h.value name v).trans (h'.value name v).symm
  rw [htype, hproperties]

/-- The fields of a record are converted if all of them stand for values. -/
theorem values_eq_ok (hnormal : o.Normal) {fields : List (String × Value)} :
    o.values = .ok fields ↔
      List.Forall₂ (fun m field => m.1 = field.1 ∧ m.2.Means field.2) o.fields fields := by
  unfold values
  rw [List.mapM_eq_ok]
  refine List.forall₂_congr_of_mem ?_
  rintro ⟨name, j⟩ hm ⟨name', v⟩
  rw [← Value.ofJson_eq_ok (hnormal.inRange name j hm)]
  cases hv : Value.ofJson j <;> simp [hv]

/-- The values of a record are those of its fields. -/
theorem mem_values_iff (hnormal : o.Normal) {fields : List (String × Value)}
    (h : o.values = .ok fields) (name : String) (v : Value) :
    (name, v) ∈ fields ↔ ∃ j, (name, j) ∈ o.fields ∧ j.Means v := by
  have hall := (values_eq_ok hnormal).mp h
  constructor
  · intro hv
    obtain ⟨⟨_, j⟩, hj, rfl, hmeans⟩ := hall.exists_left hv
    exact ⟨j, hj, hmeans⟩
  · rintro ⟨j, hj, hmeans⟩
    obtain ⟨⟨_, v'⟩, hv, rfl, hmeans'⟩ := hall.exists_right hj
    have hin := hnormal.inRange _ j hj
    have heq := ((Value.ofJson_eq_ok hin).mpr hmeans).symm.trans
      ((Value.ofJson_eq_ok hin).mpr hmeans')
    cases heq
    exact hv

theorem names_values (hnormal : o.Normal) {fields : List (String × Value)}
    (h : o.values = .ok fields) : fields.map (·.1) = o.fields.map (·.1) := by
  have hall := (values_eq_ok hnormal).mp h
  clear h hnormal
  generalize o.fields = members at hall
  induction hall with
  | nil => rfl
  | cons hfirst _ ih => rw [List.map_cons, List.map_cons, hfirst.1, ih]

theorem exists_values_iff (hnormal : o.Normal) :
    (∃ fields, o.values = .ok fields) ↔ ∀ name j, (name, j) ∈ o.fields → ∃ v, j.Means v := by
  constructor
  · rintro ⟨fields, h⟩ name j hj
    obtain ⟨⟨_, v⟩, -, -, hmeans⟩ := ((values_eq_ok hnormal).mp h).exists_right hj
    exact ⟨v, hmeans⟩
  · intro h
    refine Schema.exists_mapM fun ⟨name, j⟩ hj => ?_
    obtain ⟨v, hmeans⟩ := h name j hj
    refine ⟨(name, v), ?_⟩
    simp only [(Value.ofJson_eq_ok (hnormal.inRange name j hj)).mpr hmeans]

end ObjectEntry

/-! ## One record -/

namespace ObjectStore

variable {defs : List TypeDef} {schema : Schema} {s s' : ObjectStore schema} {o : ObjectEntry}
  {os : List ObjectEntry}

/-- Fields of different names keep their values. -/
theorem getElem?_of_checkFields {type : TypeName} {fields : List (String × Value)}
    {properties : SortedMap String Value} (h : checkFields schema type fields = .ok properties)
    (hnodup : (fields.map (·.1)).Nodup) (name : String) (v : Value) :
    properties[name]? = some v ↔ (name, v) ∈ fields := by
  suffices hor : properties[name]? = some v ↔ (name, v) ∈ fields ∨
      name ∉ fields.map (·.1) ∧ (∅ : SortedMap String Value)[name]? = some v by
    simpa using hor
  unfold checkFields at h
  generalize (∅ : SortedMap String Value) = start at h ⊢
  induction fields generalizing start with
  | nil =>
      cases List.foldlM_nil_eq_ok.mp h
      simp
  | cons field fields ih =>
      obtain ⟨first, value⟩ := field
      obtain ⟨next, hnext, h⟩ := List.foldlM_cons_eq_ok.mp h
      obtain ⟨-, hnext⟩ := Except.check_bind_eq_ok.mp hnext
      cases Except.pure_eq_ok.mp hnext
      obtain ⟨hfresh, hnodup⟩ := List.nodup_cons.mp hnodup
      rw [ih hnodup _ h, Std.ExtTreeMap.getElem?_insert]
      simp only [Std.LawfulEqCmp.compare_eq_iff_eq]
      by_cases heq : first = name
      · subst heq
        have hother : (first, v) ∉ fields := fun hmem =>
          hfresh (List.mem_map.mpr ⟨_, hmem, rfl⟩)
        simp [hfresh, hother, eq_comm]
      · simp [heq, Ne.symm heq]

/-- Enters one record. -/
def enter (s : ObjectStore schema) (o : ObjectEntry) : Except FileError (ObjectStore schema) := do
  let fields ← o.values
  match s.insertAt o.id o.type fields with
  | .ok s => .ok s
  | .error e => .error (.data e)

theorem enter_eq_ok : s.enter o = .ok s' ↔
    ∃ fields, o.values = .ok fields ∧ s.insertAt o.id o.type fields = .ok s' := by
  unfold enter
  rw [Except.bind_eq_ok]
  refine exists_congr fun fields => and_congr_right fun _ => ?_
  cases s.insertAt o.id o.type fields <;> simp

/-- A record is entered if it is valid and its id is free. -/
theorem exists_enter_iff (hschema : Schema.ofDefinitions defs = .ok schema) (hnormal : o.Normal) :
    (∃ s', s.enter o = .ok s') ↔ s.get? o.id = none ∧ o.Valid defs := by
  constructor
  · rintro ⟨s', h⟩
    obtain ⟨fields, hvalues, hinsert⟩ := enter_eq_ok.mp h
    obtain ⟨properties, hconcrete, hfree, hfields, -⟩ := insertAt_eq_ok.mp hinsert
    refine ⟨hfree, (isConcrete_iff_exists hschema).mp hconcrete, fun name j hj => ?_,
      (ObjectEntry.exists_values_iff hnormal).mp ⟨fields, hvalues⟩⟩
    have hname : name ∈ fields.map (·.1) := by
      rw [ObjectEntry.names_values hnormal hvalues]
      exact List.mem_map_of_mem hj
    obtain ⟨field, hfield, rfl⟩ := List.mem_map.mp hname
    rw [declaresProperty_iff hschema (Schema.isConcrete_iff.mp hconcrete).1]
    exact exists_checkFields_iff.mp ⟨properties, hfields⟩ field hfield
  · rintro ⟨hfree, hvalid⟩
    have hconcrete := (isConcrete_iff_exists hschema).mpr hvalid.concrete
    obtain ⟨fields, hvalues⟩ := (ObjectEntry.exists_values_iff hnormal).mpr hvalid.meaning
    have hdeclared : ∀ field ∈ fields, (schema.property? o.type field.1).isSome = true := by
      rintro ⟨name, v⟩ hfield
      obtain ⟨j, hj, -⟩ := (ObjectEntry.mem_values_iff hnormal hvalues name v).mp hfield
      rw [← declaresProperty_iff hschema (Schema.isConcrete_iff.mp hconcrete).1]
      exact hvalid.declared name j hj
    obtain ⟨properties, hfields⟩ := exists_checkFields_iff.mpr hdeclared
    have hinsert := insertAt_eq_ok.mpr ⟨properties, hconcrete, hfree, hfields, rfl⟩
    exact ⟨_, enter_eq_ok.mpr ⟨fields, hvalues, hinsert⟩⟩

/-- What a record describes is there afterwards, besides all that was there before. -/
theorem get?_of_enter (hnormal : o.Normal) (h : s.enter o = .ok s') (id : ObjectId)
    (stored : StoredObject) :
    s'.get? id = some stored ↔ s.get? id = some stored ∨ o.id = id ∧ o.Describes stored := by
  obtain ⟨fields, hvalues, hinsert⟩ := enter_eq_ok.mp h
  obtain ⟨properties, hfields, hfree, hafter⟩ := get?_of_insertAt hinsert
  have hnodup : (fields.map (·.1)).Nodup := by
    rw [ObjectEntry.names_values hnormal hvalues]
    exact hnormal.nodup
  have hnew : o.Describes { type := o.type, properties } := by
    refine ⟨rfl, fun name v => ?_⟩
    rw [getElem?_of_checkFields hfields hnodup]
    exact ObjectEntry.mem_values_iff hnormal hvalues name v
  rw [hafter]
  by_cases heq : o.id = id
  · subst heq
    rw [if_pos rfl, hfree]
    constructor
    · rintro ⟨⟩
      exact .inr ⟨rfl, hnew⟩
    · rintro (hnone | ⟨-, hstored⟩)
      · cases hnone
      · rw [hnew.functional hstored]
  · rw [if_neg heq]
    exact ⟨.inl, fun hor => hor.resolve_right fun hand => heq hand.1⟩

theorem get?_eq_none_of_enter (h : s.enter o = .ok s') (id : ObjectId) :
    s'.get? id = none ↔ s.get? id = none ∧ o.id ≠ id := by
  obtain ⟨fields, -, hinsert⟩ := enter_eq_ok.mp h
  obtain ⟨properties, -, -, hafter⟩ := get?_of_insertAt hinsert
  rw [hafter]
  by_cases heq : o.id = id <;> simp [heq]

theorem nextId_of_enter (h : s.enter o = .ok s') : s'.nextId = max s.nextId o.id.next := by
  obtain ⟨fields, -, hinsert⟩ := enter_eq_ok.mp h
  obtain ⟨properties, _, -, -, rfl⟩ := insertAt_eq_ok.mp hinsert
  rfl

/-! ## All records -/

/-- All records are entered if they are valid and have free ids of their own. -/
theorem exists_enterAll_iff (hschema : Schema.ofDefinitions defs = .ok schema)
    (hnormal : ∀ o ∈ os, o.Normal) :
    (∃ s', os.foldlM enter s = .ok s') ↔
      (os.map (·.id)).Nodup ∧ ∀ o ∈ os, s.get? o.id = none ∧ o.Valid defs := by
  induction os generalizing s with
  | nil => exact ⟨fun _ => ⟨List.nodup_nil, nofun⟩, fun _ => ⟨s, rfl⟩⟩
  | cons o os ih =>
      obtain ⟨hfirst, hrest⟩ := List.forall_mem_cons.mp hnormal
      constructor
      · rintro ⟨s', h⟩
        obtain ⟨mid, hmid, h⟩ := List.foldlM_cons_eq_ok.mp h
        have hhere := (exists_enter_iff hschema hfirst).mp ⟨mid, hmid⟩
        obtain ⟨hnodup, hothers⟩ := (ih hrest).mp ⟨s', h⟩
        have hfree : ∀ o' ∈ os, s.get? o'.id = none ∧ o.id ≠ o'.id := fun o' ho' =>
          (get?_eq_none_of_enter hmid o'.id).mp (hothers o' ho').1
        refine ⟨List.nodup_cons.mpr ⟨fun hmem => ?_, hnodup⟩, List.forall_mem_cons.mpr
          ⟨hhere, fun o' ho' => ⟨(hfree o' ho').1, (hothers o' ho').2⟩⟩⟩
        obtain ⟨o', ho', heq⟩ := List.mem_map.mp hmem
        exact (hfree o' ho').2 heq.symm
      · rintro ⟨hnodup, hall⟩
        obtain ⟨hfresh, hnodup⟩ := List.nodup_cons.mp hnodup
        obtain ⟨hhere, hothers⟩ := List.forall_mem_cons.mp hall
        obtain ⟨mid, hmid⟩ := (exists_enter_iff hschema hfirst).mpr hhere
        have hothers' : ∀ o' ∈ os, mid.get? o'.id = none ∧ o'.Valid defs := by
          intro o' ho'
          have hne : o.id ≠ o'.id := fun heq => hfresh (List.mem_map.mpr ⟨o', ho', heq.symm⟩)
          exact ⟨(get?_eq_none_of_enter hmid o'.id).mpr ⟨(hothers o' ho').1, hne⟩,
            (hothers o' ho').2⟩
        obtain ⟨s', h⟩ := (ih hrest).mpr ⟨hnodup, hothers'⟩
        exact ⟨s', List.foldlM_cons_eq_ok.mpr ⟨mid, hmid, h⟩⟩

/-- The objects described by the records are there afterwards, besides those that were there
before. -/
theorem get?_of_enterAll (hnormal : ∀ o ∈ os, o.Normal) (h : os.foldlM enter s = .ok s')
    (id : ObjectId) (stored : StoredObject) :
    s'.get? id = some stored ↔
      s.get? id = some stored ∨ ∃ o ∈ os, o.id = id ∧ o.Describes stored := by
  induction os generalizing s with
  | nil =>
      cases List.foldlM_nil_eq_ok.mp h
      simp
  | cons o os ih =>
      obtain ⟨hfirst, hrest⟩ := List.forall_mem_cons.mp hnormal
      obtain ⟨mid, hmid, h⟩ := List.foldlM_cons_eq_ok.mp h
      rw [ih hrest h, get?_of_enter hfirst hmid, or_assoc, List.exists_mem_cons_iff]

/-- The counter moves to the highest of the ids behind the given ones, if it was not there
already. -/
theorem isLeast_nextId_of_enterAll (h : os.foldlM enter s = .ok s') :
    IsLeast {n | s.nextId ≤ n ∧ ∀ o ∈ os, o.id.next ≤ n} s'.nextId := by
  induction os generalizing s with
  | nil =>
      cases List.foldlM_nil_eq_ok.mp h
      exact ⟨⟨Nat.le_refl _, nofun⟩, fun _ hn => hn.1⟩
  | cons o os ih =>
      obtain ⟨mid, hmid, h⟩ := List.foldlM_cons_eq_ok.mp h
      have hset : {n | s.nextId ≤ n ∧ ∀ o' ∈ o :: os, o'.id.next ≤ n} =
          {n | mid.nextId ≤ n ∧ ∀ o' ∈ os, o'.id.next ≤ n} := by
        ext n
        rw [nextId_of_enter hmid]
        simp only [Set.mem_ofPred_eq, List.forall_mem_cons, Nat.max_le, and_assoc]
      rw [hset]
      exact ih h

/-- A store is what can be looked up in it, and its counter. -/
theorem eq_of_get? (hget : ∀ id stored, s.get? id = some stored ↔ s'.get? id = some stored)
    (hnext : s.nextId = s'.nextId) : s = s' := by
  have hobjects : s.objects = s'.objects :=
    Std.ExtTreeMap.ext_getElem? fun id => Option.ext fun stored => hget id stored
  cases s
  cases s'
  cases hobjects
  cases hnext
  rfl

end ObjectStore

/-! ## Reading records -/

namespace Json

variable {α : Type} {ms : Members} {name : String} {read : Json → Option α} {a : α}

theorem Members.mem_of_single? {j : Json} (h : ms.single? name = some (some j)) :
    (name, j) ∈ ms := by
  unfold single? at h
  match hfilter : ms.filter fun m => m.1 = name with
  | [] => simp [hfilter] at h
  | [m] =>
      have hm : m ∈ ms.filter fun m => m.1 = name := by
        rw [hfilter]
        exact List.mem_singleton_self m
      obtain ⟨hmem, hname⟩ := List.mem_filter.mp hm
      simp only [hfilter, Option.some.injEq] at h
      rw [← of_decide_eq_true hname, ← h]
      exact hmem
  | _ :: _ :: _ => simp [hfilter] at h

theorem Members.of_required? (h : ms.required? name read = some a) :
    ∃ j, (name, j) ∈ ms ∧ read j = some a := by
  unfold required? at h
  simp only [Option.bind_eq_bind, Option.bind_eq_some_iff] at h
  obtain ⟨j?, hsingle, j, rfl, hread⟩ := h
  exact ⟨j, mem_of_single? hsingle, hread⟩

theorem Members.of_defaulted? {default : α} (h : ms.defaulted? name default read = some a) :
    a = default ∨ ∃ j, (name, j) ∈ ms ∧ read j = some a := by
  unfold defaulted? at h
  simp only [Option.bind_eq_bind, Option.bind_eq_some_iff] at h
  obtain ⟨_ | j, hsingle, h⟩ := h
  · cases h
    exact .inl rfl
  · exact .inr ⟨j, mem_of_single? hsingle, h⟩

theorem of_list? {j : Json} {as : List α} (h : list? read j = some as) :
    ∃ items, j = .array items ∧ ∀ a ∈ as, ∃ i ∈ items, read i = some a := by
  obtain ⟨items, hitems, hread⟩ := Option.bind_eq_some_iff.mp h
  cases j with
  | array =>
      cases hitems
      refine ⟨items, rfl, ?_⟩
      clear h
      induction items generalizing as with
      | nil =>
          cases hread
          nofun
      | cons i items ih =>
          rw [List.mapM_cons] at hread
          obtain ⟨a, ha, hread⟩ := Option.bind_eq_some_iff.mp hread
          obtain ⟨rest, hrest, hread⟩ := Option.bind_eq_some_iff.mp hread
          cases hread
          refine List.forall_mem_cons.mpr ⟨⟨i, List.mem_cons_self, ha⟩, fun b hb => ?_⟩
          obtain ⟨i', hi', hb⟩ := ih hrest b hb
          exact ⟨i', .tail _ hi', hb⟩
  | null | bool | number | string | object | beyond => cases hitems

end Json

namespace ObjectEntry

theorem normal_of_ofJson? {j : Json} {o : ObjectEntry} (hin : j.InRange)
    (h : ofJson? j = some o) : o.Normal := by
  obtain ⟨ms, hms, h⟩ := Option.bind_eq_some_iff.mp h
  obtain ⟨id, -, h⟩ := Option.bind_eq_some_iff.mp h
  obtain ⟨type, -, h⟩ := Option.bind_eq_some_iff.mp h
  obtain ⟨fields, hfields, h⟩ := Option.bind_eq_some_iff.mp h
  cases h
  rcases Json.Members.of_defaulted? hfields with rfl | ⟨i, hi, hread⟩
  · exact ⟨List.nodup_nil, nofun⟩
  · have hmember : i.InRange := by
      cases j with
      | object =>
          cases hms
          exact hin.member hi
      | null | bool | number | string | array | beyond => cases hms
    have hsorted : i.sorted = .object fields := by
      unfold readFields? at hread
      split at hread
      · rename_i members heq
        split at hread
        · cases hread
          exact heq
        · cases hread
      · cases hread
    have hrange : (Json.object fields).InRange := hsorted ▸ Json.inRange_sorted hmember
    exact ⟨Json.nodup_names_of_sorted hsorted, fun name j hj => hrange.member hj⟩

end ObjectEntry

namespace ObjectSource

variable {defs : List TypeDef} {schema : Schema} {text : String} {f : ObjectSource}

theorem normal_of_ofText? (h : ofText? text = some f) : ∀ o ∈ f.objects, o.Normal := by
  obtain ⟨j, hparse, h⟩ := Option.bind_eq_some_iff.mp h
  obtain ⟨ms, hms, h⟩ := Option.bind_eq_some_iff.mp h
  obtain ⟨objects, hobjects, h⟩ := Option.bind_eq_some_iff.mp h
  cases h
  obtain ⟨list, hlist, hread⟩ := Json.Members.of_required? hobjects
  obtain ⟨items, rfl, hitems⟩ := Json.of_list? hread
  have hin := Json.inRange_parse? hparse
  cases j with
  | object =>
      cases hms
      intro o ho
      obtain ⟨i, hi, hentry⟩ := hitems o ho
      exact ObjectEntry.normal_of_ofJson? ((hin.member hlist).item hi) hentry
  | null | bool | number | string | array | beyond => cases hms

theorem load_eq_foldlM (schema : Schema) (f : ObjectSource) :
    f.load schema = f.objects.foldlM ObjectStore.enter (.empty schema) :=
  rfl

theorem get?_empty (id : ObjectId) : (ObjectStore.empty schema).get? id = none := by
  simp [ObjectStore.empty, ObjectStore.get?]

theorem exists_load_iff (hschema : Schema.ofDefinitions defs = .ok schema)
    (hnormal : ∀ o ∈ f.objects, o.Normal) :
    (∃ s, f.load schema = .ok s) ↔
      (f.objects.map (·.id)).Nodup ∧ ∀ o ∈ f.objects, o.Valid defs := by
  rw [load_eq_foldlM, ObjectStore.exists_enterAll_iff hschema hnormal]
  simp only [get?_empty, true_and]

theorem get?_of_load (hnormal : ∀ o ∈ f.objects, o.Normal) {s : ObjectStore schema}
    (h : f.load schema = .ok s) (id : ObjectId) (stored : StoredObject) :
    s.get? id = some stored ↔ ∃ o ∈ f.objects, o.id = id ∧ o.Describes stored := by
  rw [ObjectStore.get?_of_enterAll hnormal h, get?_empty]
  simp

theorem isLeast_nextId_of_load {s : ObjectStore schema} (h : f.load schema = .ok s) :
    IsLeast {n | 1 ≤ n ∧ ∀ o ∈ f.objects, o.id.next ≤ n} s.nextId :=
  ObjectStore.isLeast_nextId_of_enterAll h

/-- Below the last id, the id behind another one is the least above it. -/
theorem isLeast_above_iff (hlast : ∀ o ∈ f.objects, o.id < ObjectId.last) {next : ObjectId} :
    IsLeast {n | 1 ≤ n ∧ ∀ o ∈ f.objects, o.id < n} next ↔
      IsLeast {n | 1 ≤ n ∧ ∀ o ∈ f.objects, o.id.next ≤ n} next := by
  have hset : {n | 1 ≤ n ∧ ∀ o ∈ f.objects, o.id < n} =
      {n | 1 ≤ n ∧ ∀ o ∈ f.objects, o.id.next ≤ n} := by
    ext n
    refine and_congr_right fun _ => forall₂_congr fun o ho => ?_
    rw [ObjectId.next_of_lt (hlast o ho), Nat.succ_le_iff]
  rw [hset]

/-- The order of the records does not matter. -/
theorem load_of_perm {f' : ObjectSource} (hschema : Schema.ofDefinitions defs = .ok schema)
    (hnormal : ∀ o ∈ f.objects, o.Normal) (hperm : f'.objects.Perm f.objects)
    {s : ObjectStore schema} (h : f.load schema = .ok s) : f'.load schema = .ok s := by
  have hnormal' : ∀ o ∈ f'.objects, o.Normal := fun o ho => hnormal o (hperm.mem_iff.mp ho)
  obtain ⟨hnodup, hvalid⟩ := (exists_load_iff hschema hnormal).mp ⟨s, h⟩
  obtain ⟨s', h'⟩ := (exists_load_iff hschema hnormal').mpr
    ⟨(hperm.map (·.id)).nodup_iff.mpr hnodup, fun o ho => hvalid o (hperm.mem_iff.mp ho)⟩
  -- both stores have the same look-ups and the same counter
  have hget : ∀ id stored, s'.get? id = some stored ↔ s.get? id = some stored := by
    intro id stored
    rw [get?_of_load hnormal h, get?_of_load hnormal' h']
    simp only [hperm.mem_iff]
  have hnext := isLeast_nextId_of_load h'
  simp only [hperm.mem_iff] at hnext
  rw [h', ObjectStore.eq_of_get? hget (hnext.unique (isLeast_nextId_of_load h))]

/-- A file is loaded exactly if no id is repeated and all records are valid.  The store then
holds the objects that the records describe and no others, and its counter stands at the
highest of the ids behind theirs; that is the least number above all of their ids, as long as
none of them is the last one.  Records in another order make the same store. -/
theorem loads_exactly (hschema : Schema.ofDefinitions defs = .ok schema)
    (hread : ofText? text = some f) :
    ((∃ s, readObjects schema (some text) = .ok s) ↔
      (f.objects.map (·.id)).Nodup ∧ ∀ o ∈ f.objects, o.Valid defs) ∧
    ∀ s, readObjects schema (some text) = .ok s →
      (∀ id stored, s.get? id = some stored ↔
        ∃ o ∈ f.objects, o.id = id ∧ o.Describes stored) ∧
      IsLeast {n | 1 ≤ n ∧ ∀ o ∈ f.objects, o.id.next ≤ n} s.nextId ∧
      ((∀ o ∈ f.objects, o.id < ObjectId.last) →
        IsLeast {n | 1 ≤ n ∧ ∀ o ∈ f.objects, o.id < n} s.nextId) ∧
      ∀ f' : ObjectSource, f'.objects.Perm f.objects → f'.load schema = .ok s := by
  have hnormal := normal_of_ofText? hread
  have hload : readObjects schema (some text) = f.load schema := by
    rw [readObjects, hread]
  rw [hload]
  exact ⟨exists_load_iff hschema hnormal, fun s hs => ⟨get?_of_load hnormal hs,
    isLeast_nextId_of_load hs, fun hlast => (isLeast_above_iff hlast).mpr
      (isLeast_nextId_of_load hs), fun f' hperm => load_of_perm hschema hnormal hperm hs⟩⟩

/-- Two persons: the first one's spouse comes later, the second one's is not in the file. -/
def coupleText : String :=
  (Json.object [("objects", .array [
    .object [("id", .nat 2), ("type", .string "Person"),
      ("fields", .object [("id", .nat 7), ("spouse", .object [("$ref", .nat 1)])])],
    .object [("id", .nat 1), ("type", .string "Person"),
      ("fields", .object [("name", .string "Ada"), ("spouse", .object [("$ref", .nat 9)])])]])]
    ).compact

theorem loads_exactly_couple :
    ∃ f s, ofText? coupleText = some f ∧
      readObjects Sample.coupleSchema (some coupleText) = .ok s ∧
      (f.objects.map (·.id)).Nodup ∧
      (∀ o ∈ f.objects, o.Valid Sample.spouses.types) ∧ s.nextId = 3 ∧
      (∀ o ∈ f.objects, o.id < ObjectId.last) ∧
      IsLeast {n | 1 ≤ n ∧ ∀ o ∈ f.objects, o.id < n} s.nextId ∧
      ∀ f' : ObjectSource, f'.objects.Perm f.objects → f'.load Sample.coupleSchema = .ok s := by
  have hsome : (ofText? coupleText).isSome = true := by decide +kernel
  obtain ⟨f, hread⟩ := Option.isSome_iff_exists.mp hsome
  have hok : (readObjects Sample.coupleSchema (some coupleText)).isOk = true := by decide +kernel
  have hnext : ((readObjects Sample.coupleSchema (some coupleText)).value
      (by decide +kernel)).nextId = 3 := by
    decide +kernel
  have hbelow : ((ofText? coupleText).all fun f => f.objects.all (·.id < ObjectId.last)) = true := by
    decide +kernel
  have hlast : ∀ o ∈ f.objects, o.id < ObjectId.last := by
    rw [hread] at hbelow
    simpa using hbelow
  obtain ⟨hiff, hloaded⟩ := loads_exactly (Except.eq_ok_value _) hread
  obtain ⟨hnodup, hvalid⟩ := hiff.mp ⟨_, Except.eq_ok_value hok⟩
  obtain ⟨-, -, hleast, hperm⟩ := hloaded _ (Except.eq_ok_value hok)
  exact ⟨f, _, hread, Except.eq_ok_value hok, hnodup, hvalid, hnext, hlast, hleast hlast, hperm⟩

end ObjectSource

end IndexSync
