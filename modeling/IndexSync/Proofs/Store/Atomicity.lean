import IndexSync.Proofs.Schema.Lookups
import IndexSync.Proofs.Store.InPlace
import IndexSync.Sample.Boxes

/-!
# Atomic calls

Whatever calls come in, those that fail among them, a store holds what is declared and nothing
else.

- `Write.Confined` — a call changes one object, and of that object what the call names.
- `OnlyDeclared` — the invariant behind `Valid`: what is stored is declared.  Each call keeps
  it, so that any number of calls do.
- `perform_atomic` — failing calls, successful ones, and what all reachable stores have in
  common.
-/

namespace IndexSync

open Relation

/-- The type, or one that it inherits from, declares a property of this name. -/
def Schema.DeclaresProperty (defs : List TypeDef) (type : TypeName) (name : String) : Prop :=
  ∃ d ∈ defs, ReflTransGen (Extends defs) type d.name ∧ name ∈ d.properties.map (·.name)

namespace ObjectStore

variable {schema : Schema} {s s' : ObjectStore schema} {o : ObjectId} {type : TypeName}
  {name : String} {v : Value} {fields : List (String × Value)}

/-- A call changes the object that it is about, and of that object the properties that it
names.  The object is there afterwards, unless it is removed. -/
structure Write.Confined (call : Write) (s s' : ObjectStore schema) : Prop where
  others : ∀ i, i ≠ call.target s → s'.get? i = s.get? i
  live : s'.contains (call.target s) = !call.isRemoval
  type : ∀ stored stored', s.get? (call.target s) = some stored →
    s'.get? (call.target s) = some stored' → stored'.type = stored.type
  properties : ∀ stored', s'.get? (call.target s) = some stored' → ∀ name ∉ call.names,
    stored'.properties[name]? = (s.get? (call.target s)).bind (·.properties[name]?)

/-! ## What a call changes -/

/-- A new object has the fields that it was created with, all of them declared. -/
theorem mem_of_checkFields {properties : SortedMap String Value}
    (h : checkFields schema type fields = .ok properties) {name : String}
    (hname : name ∈ properties) :
    name ∈ fields.map (·.1) ∧ (schema.property? type name).isSome = true := by
  suffices hor : name ∈ (∅ : SortedMap String Value) ∨
      name ∈ fields.map (·.1) ∧ (schema.property? type name).isSome = true by
    exact hor.resolve_left Std.ExtTreeMap.not_mem_empty
  unfold checkFields at h
  generalize (∅ : SortedMap String Value) = start at h ⊢
  induction fields generalizing start with
  | nil =>
      cases List.foldlM_nil_eq_ok.mp h
      exact .inl hname
  | cons field fields ih =>
      obtain ⟨first, value⟩ := field
      obtain ⟨next, hnext, h⟩ := List.foldlM_cons_eq_ok.mp h
      obtain ⟨hfirst, hnext⟩ := Except.check_bind_eq_ok.mp hnext
      cases Except.pure_eq_ok.mp hnext
      rcases ih _ h with hstart | ⟨hmem, hdeclared⟩
      · rw [Std.ExtTreeMap.mem_insert, Std.LawfulEqCmp.compare_eq_iff_eq] at hstart
        rcases hstart with rfl | hstart
        · exact .inr ⟨List.mem_cons_self, requireProperty_eq_ok.mp hfirst⟩
        · exact .inl hstart
      · exact .inr ⟨List.mem_cons_of_mem _ hmem, hdeclared⟩

theorem get?_of_insertAt (h : s.insertAt o type fields = .ok s') :
    ∃ properties, checkFields schema type fields = .ok properties ∧ s.get? o = none ∧
      ∀ i, s'.get? i = if o = i then some { type, properties } else s.get? i := by
  obtain ⟨properties, hconcrete, hfree, hfields, rfl⟩ := insertAt_eq_ok.mp h
  have hput : ∀ i, (s.put o { type, properties } hconcrete).get? i =
      if o = i then some { type, properties } else s.get? i := fun i => get?_put _ i
  exact ⟨properties, hfields, hfree, hput⟩

theorem get?_of_set {old : Value} (h : s.set o name v = .ok (old, s')) :
    ∃ stored, s.get? o = some stored ∧ (schema.property? stored.type name).isSome = true ∧
      ∀ i, s'.get? i = if o = i then
        some { stored with properties := stored.properties.insert name v } else s.get? i := by
  obtain ⟨stored, hstored, hdeclared, -, rfl⟩ := set_eq_ok.mp h
  exact ⟨stored, hstored, hdeclared, fun i => get?_put _ i⟩

theorem get?_remove (s : ObjectStore schema) (o i : ObjectId) :
    (s.remove o).2.get? i = if o = i then none else s.get? i := by
  show (s.objects.erase o)[i]? = _
  rw [Std.ExtTreeMap.getElem?_erase]
  simp only [Std.LawfulEqCmp.compare_eq_iff_eq]
  rfl

namespace Write

variable {call : Write}

theorem confined_of_insertAt (h : s.insertAt (call.target s) type fields = .ok s')
    (hnames : call.names = fields.map (·.1)) (hremoval : call.isRemoval = false) :
    call.Confined s s' := by
  obtain ⟨properties, hfields, hfree, hafter⟩ := get?_of_insertAt h
  have hnew : s'.get? (call.target s) = some { type, properties } :=
    (hafter _).trans (if_pos rfl)
  refine ⟨fun i hi => (hafter i).trans (if_neg hi.symm), ?_, ?_, ?_⟩
  · rw [hremoval]
    exact contains_iff.mpr ⟨_, hnew⟩
  · intro stored stored' hstored _
    cases hfree.symm.trans hstored
  · intro stored' hstored' name hname
    cases hnew.symm.trans hstored'
    rw [hfree, Option.bind_none]
    apply Std.ExtTreeMap.getElem?_eq_none
    intro hmem
    rw [hnames] at hname
    exact hname (mem_of_checkFields hfields hmem).1

theorem confined_of_set {old : Value} (h : s.set (call.target s) name v = .ok (old, s'))
    (hnames : call.names = [name]) (hremoval : call.isRemoval = false) : call.Confined s s' := by
  obtain ⟨stored, hstored, -, hafter⟩ := get?_of_set h
  have hnew : s'.get? (call.target s) =
      some { stored with properties := stored.properties.insert name v } :=
    (hafter _).trans (if_pos rfl)
  refine ⟨fun i hi => (hafter i).trans (if_neg hi.symm), ?_, ?_, ?_⟩
  · rw [hremoval]
    exact contains_iff.mpr ⟨_, hnew⟩
  · intro before after hbefore hafter
    cases hstored.symm.trans hbefore
    cases hnew.symm.trans hafter
    rfl
  · intro after hafter other hother
    cases hnew.symm.trans hafter
    rw [hnames, List.mem_singleton] at hother
    rw [hstored, Option.bind_some, Std.ExtTreeMap.getElem?_insert, if_neg]
    rw [Std.LawfulEqCmp.compare_eq_iff_eq]
    exact fun hname => hother hname.symm

/-- A call that succeeds changes nothing but what it names. -/
theorem confined_of_write (h : s.write call = .ok s') : call.Confined s s' := by
  rcases write_cases h with ⟨type, fields, hat, hnames, hremoval⟩ |
    ⟨name, v, old, hset, hnames, hremoval⟩ | ⟨hremoval, rfl⟩
  · exact confined_of_insertAt hat hnames hremoval
  · exact confined_of_set hset hnames hremoval
  · have hgone : (s.remove (call.target s)).2.get? (call.target s) = none :=
      (get?_remove s _ _).trans (if_pos rfl)
    refine ⟨fun i hi => (get?_remove s _ i).trans (if_neg hi.symm), ?_, ?_, ?_⟩
    · rw [hremoval]
      exact contains_eq_false_iff.mpr hgone
    · intro _ after _ hafter
      cases hgone.symm.trans hafter
    · intro after hafter
      cases hgone.symm.trans hafter

end Write

/-! ## What stores have in common -/

/-- What is stored of an object is declared for its type. -/
def OnlyDeclared (s : ObjectStore schema) : Prop :=
  ∀ o stored, s.get? o = some stored → ∀ name ∈ stored.properties,
    (schema.property? stored.type name).isSome = true

theorem onlyDeclared_empty : (empty schema).OnlyDeclared := by
  intro o stored hstored
  simp [get?, empty] at hstored

theorem OnlyDeclared.of_insertAt (hs : s.OnlyDeclared) (h : s.insertAt o type fields = .ok s') :
    s'.OnlyDeclared := by
  obtain ⟨properties, hfields, -, hafter⟩ := get?_of_insertAt h
  intro i stored hstored name hname
  rw [hafter] at hstored
  split at hstored
  · cases hstored
    exact (mem_of_checkFields hfields hname).2
  · exact hs i stored hstored name hname

theorem OnlyDeclared.of_set (hs : s.OnlyDeclared) {old : Value}
    (h : s.set o name v = .ok (old, s')) : s'.OnlyDeclared := by
  obtain ⟨before, hbefore, hdeclared, hafter⟩ := get?_of_set h
  intro i stored hstored other hother
  rw [hafter] at hstored
  split at hstored
  · cases hstored
    rw [Std.ExtTreeMap.mem_insert, Std.LawfulEqCmp.compare_eq_iff_eq] at hother
    rcases hother with rfl | hother
    · exact hdeclared
    · exact hs o before hbefore other hother
  · exact hs i stored hstored other hother

theorem OnlyDeclared.of_remove (hs : s.OnlyDeclared) (o : ObjectId) :
    (s.remove o).2.OnlyDeclared := by
  intro i stored hstored
  rw [get?_remove] at hstored
  split at hstored
  · cases hstored
  · exact hs i stored hstored

theorem OnlyDeclared.of_write (hs : s.OnlyDeclared) {call : Write} (h : s.write call = .ok s') :
    s'.OnlyDeclared := by
  rcases write_cases h with ⟨type, fields, hat, -⟩ | ⟨name, v, old, hset, -⟩ | ⟨-, rfl⟩
  · exact hs.of_insertAt hat
  · exact hs.of_set hset
  · exact hs.of_remove _

theorem onlyDeclared_performAll (calls : List Write) :
    ((empty schema).performAll calls).OnlyDeclared := by
  rw [performAll_eq_afterAll]
  induction calls using List.reverseRecOn with
  | nil => exact onlyDeclared_empty
  | append_singleton calls call ih =>
      rw [afterAll_concat]
      cases h : ((empty schema).afterAll calls).write call with
      | error e =>
          rw [after_eq_of_error h]
          exact ih
      | ok s' =>
          rw [after_eq_of_ok h]
          exact ih.of_write h

/-- A store that some calls leave behind, starting from the empty one. -/
def Reachable (s : ObjectStore schema) : Prop :=
  ∃ calls, (empty schema).performAll calls = s

/-- Objects are of declared types that are not abstract, and hold only properties that their
type or one that it inherits from declares. -/
structure Valid (defs : List TypeDef) (s : ObjectStore schema) : Prop where
  concrete : ∀ o stored, s.get? o = some stored →
    ∃ d ∈ defs, d.name = stored.type ∧ d.isAbstract = false
  declared : ∀ o stored, s.get? o = some stored → ∀ name ∈ stored.properties,
    Schema.DeclaresProperty defs stored.type name

section

variable {defs : List TypeDef}

theorem declaresProperty_iff (hschema : Schema.ofDefinitions defs = .ok schema)
    (htype : schema.declares type = true) :
    Schema.DeclaresProperty defs type name ↔ (schema.property? type name).isSome = true := by
  rw [Schema.property?_isSome_iff, ← List.mem_map,
    (Schema.inherits_of_accepted hschema).mem_properties_iff htype]
  rfl

theorem declares_of_get? {stored : StoredObject} (h : s.get? o = some stored) :
    schema.declares stored.type = true :=
  (Schema.isConcrete_iff.mp (s.concrete o stored h)).1

/-- The types that objects can have are those declared that are not abstract. -/
theorem isConcrete_iff_exists (hschema : Schema.ofDefinitions defs = .ok schema) :
    schema.isConcrete type = true ↔ ∃ d ∈ defs, d.name = type ∧ d.isAbstract = false := by
  have haccepted := Schema.exists_ofDefinitions_iff.mp ⟨schema, hschema⟩
  obtain ⟨zipped, hlists⟩ := Schema.lists_of_accepted hschema
  rw [Schema.isConcrete, hlists.definition?_eq, Option.any_eq_true]
  simp only [Schema.findDefinition?_eq_some_iff haccepted.types_nodup, and_assoc,
    Bool.not_eq_true']

theorem valid_of_onlyDeclared (hschema : Schema.ofDefinitions defs = .ok schema)
    (hs : s.OnlyDeclared) : s.Valid defs := by
  refine ⟨fun o stored h => (isConcrete_iff_exists hschema).mp (s.concrete o stored h),
    fun o stored h name hname => ?_⟩
  rw [declaresProperty_iff hschema (declares_of_get? h)]
  exact hs o stored h name hname

theorem exists_read_iff (hschema : Schema.ofDefinitions defs = .ok schema) :
    (∃ v, s.read o name = .ok v) ↔
      ∃ stored, s.get? o = some stored ∧ Schema.DeclaresProperty defs stored.type name := by
  simp only [read_eq_ok]
  constructor
  · rintro ⟨v, stored, h, hdeclared, -⟩
    exact ⟨stored, h, (declaresProperty_iff hschema (declares_of_get? h)).mpr hdeclared⟩
  · rintro ⟨stored, h, hdeclared⟩
    exact ⟨_, stored, h, (declaresProperty_iff hschema (declares_of_get? h)).mp hdeclared, rfl⟩

/-- A store that is written in place stays whole.  A call leaves what it makes of a store that
is not; one that fails leaves all of it as it was, the counter of ids included; one that
succeeds changes one object, and of that object no property that it does not name.  Whatever
calls came in, objects are of declared types that are not abstract and hold declared properties
only, and what can be read is what is declared for the objects that are there. -/
theorem perform_atomic (hschema : Schema.ofDefinitions defs = .ok schema) (hs : s.Reachable) :
    (∀ (call : Write) s', call.perform.on s = (.ok (), s') ↔ s.write call = .ok s') ∧
    (∀ (call : Write) e s', call.perform.on s = (.error e, s') ↔
      s.write call = .error e ∧ s' = s) ∧
    (∀ (call : Write) s', call.perform.on s = (.ok (), s') → call.Confined s s') ∧
    s.Valid defs ∧
    ∀ o name, (∃ v, s.read o name = .ok v) ↔
      ∃ stored, s.get? o = some stored ∧ Schema.DeclaresProperty defs stored.type name := by
  obtain ⟨calls, rfl⟩ := hs
  refine ⟨fun _ _ => Write.on_perform_eq_ok, fun _ _ _ => Write.on_perform_eq_error, ?confined,
    valid_of_onlyDeclared hschema (onlyDeclared_performAll calls),
    fun o name => exists_read_iff hschema⟩
  intro call s' h
  exact Write.confined_of_write (Write.on_perform_eq_ok.mp h)

end

open Sample

/-- A box that weighs three.  It was not given a colour, as boxes have none. -/
def weighed : ObjectStore boxesSchema :=
  (empty boxesSchema).performAll
    [.insert "Box" [("weight", .integer 3)], .set 1 "colour" (.text "red")]

/-- Nothing can be appended to a weight. -/
theorem push_weight :
    ((Write.push 1 "weight" (.integer 1)).perform.on weighed).1 =
      .error (.wrongContainer .list "integer") := by
  decide +kernel

theorem perform_atomic_boxes :
    Schema.ofDefinitions boxes = .ok boxesSchema ∧ weighed.Reachable ∧
    (Write.push 1 "weight" (.integer 1)).perform.on weighed =
      (.error (.wrongContainer .list "integer"), weighed) ∧
    weighed.Valid boxes ∧ ∃ stored, weighed.get? 1 = some stored ∧
      Schema.DeclaresProperty boxes stored.type "weight" := by
  have hschema : Schema.ofDefinitions boxes = .ok boxesSchema := Except.eq_ok_value _
  have hreachable : weighed.Reachable := ⟨_, rfl⟩
  obtain ⟨-, hfails, -, hvalid, hreads⟩ := perform_atomic hschema hreachable
  obtain ⟨-, hkept⟩ := (hfails _ _ _).mp (Prod.ext push_weight rfl)
  refine ⟨hschema, hreachable, Prod.ext push_weight hkept, hvalid, ?_⟩
  exact (hreads 1 "weight").mp ⟨.integer 3, Except.eq_ok_of_toOption (by decide +kernel)⟩

end ObjectStore

end IndexSync
