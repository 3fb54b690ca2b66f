import IndexSync.Proofs.Schema.Inheritance
import IndexSync.Proofs.Store.Reading

/-!
# Writing to a store

Every object of a store was created by a call, and a call that fails leaves the store as it
was.

- `insertAt_eq_ok`, `set_eq_ok`, `push_eq_ok` — when a call succeeds, and what it makes of
  the store.
- `Write`, `after`, `afterAll` — the calls that may change a store, and the store after one
  of them or several; `write_cases` — what a call that succeeds has done.
-/

namespace IndexSync.ObjectStore

variable {schema : Schema}

/-! ## Successful calls -/

section

variable {s s' : ObjectStore schema} {o : ObjectId} {type : TypeName} {name : String}
  {v : Value} {fields : List (String × Value)}

theorem requireProperty_eq_ok :
    requireProperty schema type name = .ok () ↔ (schema.property? type name).isSome = true := by
  unfold requireProperty
  split <;> simp_all

theorem insertAt_of_undefined (h : schema.definition? type = none) :
    s.insertAt o type fields = .error (.unknownType type) := by
  unfold insertAt
  split
  · rfl
  · rename_i hd
    cases h.symm.trans hd

theorem insertAt_of_abstract {d : TypeDef} (h : schema.definition? type = some d)
    (habstract : d.isAbstract = true) :
    s.insertAt o type fields = .error (.abstractType type) := by
  unfold insertAt
  split
  · rename_i hunknown
    cases h.symm.trans hunknown
  · rename_i d' hd
    cases h.symm.trans hd
    rw [dif_pos habstract]

theorem insertAt_of_concrete (h : schema.isConcrete type = true) :
    s.insertAt o type fields =
      if s.contains o then .error (.duplicateObject o)
      else do
        let properties ← checkFields schema type fields
        return { s.put o { type, properties } h with nextId := max s.nextId o.next } := by
  unfold insertAt
  split
  · rename_i hunknown
    simp [Schema.isConcrete, hunknown] at h
  · rename_i d hd
    have hconcrete : ¬ d.isAbstract = true := by simpa [Schema.isConcrete, hd] using h
    rw [dif_neg hconcrete]

/-- Objects are created of concrete types, under ids that are free, with declared
properties. -/
theorem insertAt_eq_ok :
    s.insertAt o type fields = .ok s' ↔ ∃ properties, ∃ h : schema.isConcrete type = true,
      s.get? o = none ∧ checkFields schema type fields = .ok properties ∧
        s' = { s.put o { type, properties } h with nextId := max s.nextId o.next } := by
  cases hd : schema.definition? type with
  | none =>
      rw [insertAt_of_undefined hd]
      simp [Schema.isConcrete, hd]
  | some d =>
      by_cases habstract : d.isAbstract = true
      · rw [insertAt_of_abstract hd habstract]
        simp [Schema.isConcrete, hd, habstract]
      · have htype := Schema.isConcrete_of_definition? hd habstract
        rw [insertAt_of_concrete htype]
        split
        · rename_i hlive
          obtain ⟨stored, hstored⟩ := contains_iff.mp hlive
          simp [hstored]
        · rename_i hfree
          rw [Bool.not_eq_true, contains_eq_false_iff] at hfree
          rw [Except.bind_eq_ok]
          constructor
          · rintro ⟨properties, hfields, hs'⟩
            exact ⟨properties, htype, hfree, hfields, (Except.pure_eq_ok.mp hs').symm⟩
          · rintro ⟨properties, -, -, hfields, rfl⟩
            exact ⟨properties, hfields, rfl⟩

/-- The fields of a new object are accepted if they are all declared, and refused for one
that is not. -/
theorem checkFields_cases (schema : Schema) (type : TypeName) (fields : List (String × Value)) :
    (∀ field ∈ fields, (schema.property? type field.1).isSome = true) ∧
        (∃ properties, checkFields schema type fields = .ok properties) ∨
      ∃ field ∈ fields, schema.property? type field.1 = none ∧
        checkFields schema type fields = .error (.unknownProperty type field.1) := by
  unfold checkFields
  generalize (∅ : SortedMap String Value) = start
  induction fields generalizing start with
  | nil => exact .inl ⟨nofun, start, rfl⟩
  | cons field fields ih =>
      obtain ⟨name, value⟩ := field
      rw [List.foldlM_cons]
      cases hname : schema.property? type name with
      | none =>
          have herror : requireProperty schema type name = .error (.unknownProperty type name) := by
            rw [requireProperty, hname]
            rfl
          refine .inr ⟨(name, value), List.mem_cons_self, hname, ?_⟩
          simp only [herror]
          rfl
      | some p =>
          have hok : requireProperty schema type name = .ok () :=
            requireProperty_eq_ok.mpr (by rw [hname]; rfl)
          simp only [hok]
          rcases ih (start.insert name value) with ⟨hdeclared, haccepted⟩ | ⟨other, hmem, hrefused⟩
          · have hall : ∀ field ∈ (name, value) :: fields,
                (schema.property? type field.1).isSome = true := by
              rw [List.forall_mem_cons]
              exact ⟨by rw [hname]; rfl, hdeclared⟩
            exact .inl ⟨hall, haccepted⟩
          · exact .inr ⟨other, List.mem_cons_of_mem _ hmem, hrefused⟩

theorem exists_checkFields_iff :
    (∃ properties, checkFields schema type fields = .ok properties) ↔
      ∀ field ∈ fields, (schema.property? type field.1).isSome = true := by
  rcases checkFields_cases schema type fields with
    ⟨hdeclared, haccepted⟩ | ⟨field, hmem, hnone, herror⟩
  · exact ⟨fun _ => hdeclared, fun _ => haccepted⟩
  · constructor
    · rintro ⟨properties, hok⟩
      cases herror.symm.trans hok
    · intro hdeclared
      have hfield := hdeclared field hmem
      rw [hnone] at hfield
      cases hfield

/-- Nothing but an object that is there makes a new one a duplicate. -/
theorem contains_of_insertAt_duplicate {i : ObjectId}
    (h : s.insertAt o type fields = .error (.duplicateObject i)) : s.contains o = true := by
  unfold insertAt at h
  split at h
  · cases h
  · split at h
    · cases h
    · split at h
      · assumption
      · rcases checkFields_cases schema type fields with
          ⟨-, properties, hok⟩ | ⟨field, -, -, herror⟩
        · rw [hok] at h
          cases h
        · rw [herror] at h
          cases h

theorem insert_eq_ok :
    s.insert type fields = .ok (o, s') ↔ o = s.nextId ∧ s.insertAt o type fields = .ok s' := by
  unfold insert
  rw [Except.bind_eq_ok]
  simp only [Except.pure_eq_ok, Prod.mk.injEq]
  constructor
  · rintro ⟨t, ht, rfl, rfl⟩
    exact ⟨rfl, ht⟩
  · rintro ⟨rfl, ht⟩
    exact ⟨s', ht, rfl, rfl⟩

/-- While the counter stands at a free id, all that an insertion takes is a concrete type and
declared fields. -/
theorem exists_insert_iff (hfree : s.get? s.nextId = none) :
    (∃ o s', s.insert type fields = .ok (o, s')) ↔ schema.isConcrete type = true ∧
      ∀ field ∈ fields, (schema.property? type field.1).isSome = true := by
  constructor
  · rintro ⟨o, s', h⟩
    obtain ⟨-, hat⟩ := insert_eq_ok.mp h
    obtain ⟨properties, hconcrete, -, hfields, -⟩ := insertAt_eq_ok.mp hat
    exact ⟨hconcrete, exists_checkFields_iff.mp ⟨properties, hfields⟩⟩
  · rintro ⟨hconcrete, hdeclared⟩
    obtain ⟨properties, hfields⟩ := exists_checkFields_iff.mpr hdeclared
    have hat := insertAt_eq_ok.mpr ⟨properties, hconcrete, hfree, hfields, rfl⟩
    exact ⟨_, _, insert_eq_ok.mpr ⟨rfl, hat⟩⟩

theorem contains_of_insert_duplicate {i : ObjectId}
    (h : s.insert type fields = .error (.duplicateObject i)) : s.contains s.nextId = true := by
  unfold insert at h
  cases hat : s.insertAt s.nextId type fields with
  | ok s' =>
      rw [hat] at h
      cases h
  | error e =>
      rw [hat] at h
      cases h
      exact contains_of_insertAt_duplicate hat

theorem set_of_get?_eq_none (h : s.get? o = none) :
    s.set o name v = .error (.unknownObject o) := by
  unfold set
  split
  · rfl
  · rename_i h'
    cases h.symm.trans h'

theorem set_of_get? {stored : StoredObject} (h : s.get? o = some stored) :
    s.set o name v = (requireProperty schema stored.type name).map fun _ =>
      (stored.properties.getD name .null,
        s.put o { stored with properties := stored.properties.insert name v }
          (s.concrete o stored h)) := by
  unfold set
  split
  · rename_i h'
    cases h.symm.trans h'
  · rename_i stored' h'
    cases h.symm.trans h'
    rfl

theorem set_eq_ok {old : Value} :
    s.set o name v = .ok (old, s') ↔ ∃ stored, ∃ h : s.get? o = some stored,
      (schema.property? stored.type name).isSome = true ∧
        old = stored.properties.getD name .null ∧
        s' = s.put o { stored with properties := stored.properties.insert name v }
          (s.concrete o stored h) := by
  unfold set
  split
  · rename_i hgone
    simp [hgone]
  · rename_i stored hstored
    rw [Except.check_bind_eq_ok, requireProperty_eq_ok, Except.pure_eq_ok, Prod.mk.injEq]
    constructor
    · rintro ⟨hdeclared, hold, hs'⟩
      exact ⟨stored, hstored, hdeclared, hold.symm, hs'.symm⟩
    · rintro ⟨stored', hstored', hdeclared, hold, hs'⟩
      cases hstored.symm.trans hstored'
      exact ⟨hdeclared, hold.symm, hs'.symm⟩

/-- A push sets the property to what it holds with one more element. -/
theorem push_eq_ok {element : Value} :
    s.push o name element = .ok s' ↔ ∃ current updated old,
      s.read o name = .ok current ∧ append? element current = some updated ∧
        s.set o name updated = .ok (old, s') := by
  unfold push
  rw [Except.bind_eq_ok]
  refine exists_congr fun current => ?_
  cases append? element current with
  | none => simp
  | some updated =>
      constructor
      · rintro ⟨hread, h⟩
        obtain ⟨⟨old, t⟩, hset, ht⟩ := Except.bind_eq_ok.mp h
        obtain rfl : t = s' := Except.pure_eq_ok.mp ht
        exact ⟨updated, old, hread, rfl, hset⟩
      · rintro ⟨_, old, hread, ⟨⟩, hset⟩
        exact ⟨hread, Except.bind_eq_ok.mpr ⟨(old, s'), hset, rfl⟩⟩

end

/-! ## What a call can do -/

/-- The calls that may change a store. -/
inductive Write where
  | insert (type : TypeName) (fields : List (String × Value))
  | insertAt (o : ObjectId) (type : TypeName) (fields : List (String × Value))
  | set (o : ObjectId) (name : String) (v : Value)
  | push (o : ObjectId) (name : String) (element : Value)
  | remove (o : ObjectId)

namespace Write

/-- The object that a call is about. -/
def target (s : ObjectStore schema) : Write → ObjectId
  | .insert _ _ => s.nextId
  | .insertAt o _ _ | .set o _ _ | .push o _ _ | .remove o => o

/-- The properties that a call names. -/
def names : Write → List String
  | .insert _ fields | .insertAt _ _ fields => fields.map (·.1)
  | .set _ name _ | .push _ name _ => [name]
  | .remove _ => []

def isRemoval : Write → Bool
  | .remove _ => true
  | .insert .. | .insertAt .. | .set .. | .push .. => false

end Write

/-- What a call makes of a store, if it succeeds. -/
def write (s : ObjectStore schema) : Write → Except DataError (ObjectStore schema)
  | .insert type fields => return (← s.insert type fields).2
  | .insertAt o type fields => s.insertAt o type fields
  | .set o name v => return (← s.set o name v).2
  | .push o name element => s.push o name element
  | .remove o => .ok (s.remove o).2

/-- A call creates an object, sets a property or removes an object. -/
theorem write_cases {s s' : ObjectStore schema} {call : Write} (h : s.write call = .ok s') :
    (∃ type fields, s.insertAt (call.target s) type fields = .ok s' ∧
        call.names = fields.map (·.1) ∧ call.isRemoval = false) ∨
      (∃ name v old, s.set (call.target s) name v = .ok (old, s') ∧
        call.names = [name] ∧ call.isRemoval = false) ∨
      call.isRemoval = true ∧ s' = (s.remove (call.target s)).2 := by
  cases call with
  | insert type fields =>
      obtain ⟨⟨o, t⟩, hinsert, ht⟩ := Except.bind_eq_ok.mp h
      obtain rfl : t = s' := Except.pure_eq_ok.mp ht
      obtain ⟨rfl, hat⟩ := insert_eq_ok.mp hinsert
      exact .inl ⟨type, fields, hat, rfl, rfl⟩
  | insertAt o type fields => exact .inl ⟨type, fields, h, rfl, rfl⟩
  | set o name v =>
      obtain ⟨⟨old, t⟩, hset, ht⟩ := Except.bind_eq_ok.mp h
      obtain rfl : t = s' := Except.pure_eq_ok.mp ht
      exact .inr (.inl ⟨name, v, old, hset, rfl, rfl⟩)
  | push o name element =>
      obtain ⟨_, updated, old, -, -, hset⟩ := push_eq_ok.mp h
      exact .inr (.inl ⟨name, updated, old, hset, rfl, rfl⟩)
  | remove o =>
      cases h
      exact .inr (.inr ⟨rfl, rfl⟩)

/-- The store after a call; one that fails changes nothing. -/
def after (s : ObjectStore schema) (call : Write) : ObjectStore schema :=
  match s.write call with
  | .ok s' => s'
  | .error _ => s

theorem after_eq_of_ok {s s' : ObjectStore schema} {call : Write} (h : s.write call = .ok s') :
    s.after call = s' := by
  rw [after, h]

theorem after_eq_of_error {s : ObjectStore schema} {call : Write} {e : DataError}
    (h : s.write call = .error e) : s.after call = s := by
  rw [after, h]

/-- The store after calls, first to last. -/
def afterAll (s : ObjectStore schema) (calls : List Write) : ObjectStore schema :=
  calls.foldl after s

@[simp] theorem afterAll_nil (s : ObjectStore schema) : s.afterAll [] = s := rfl

@[simp] theorem afterAll_concat (s : ObjectStore schema) (calls : List Write) (call : Write) :
    s.afterAll (calls ++ [call]) = (s.afterAll calls).after call := by
  simp [afterAll]

end IndexSync.ObjectStore
