import IndexSync.EntityRef
import IndexSync.Proofs.Success

/-!
# Reading a store

- `runtimeType_eq_ok`, `read_eq_ok` — what can be read of an object, from what is stored of
  it; whatever its type declares can (`exists_read_of_property?`).
- `Identity.of`, `identity_eq_of_idProperty?` — an identity is the value of the identifier,
  or the object itself while that is null.
- `exists_identity_iff`, `exists_reference_iff` — which objects have an identity, and with it
  a reference.
- `get?_put` — a store with one object replaced.
-/

namespace IndexSync

variable {schema : Schema}

/-- The identity of an object whose identifier has a value. -/
def Identity.of (o : ObjectId) (v : Value) : Identity :=
  if v.isNull then .object o else .id v

theorem Identity.of_eq_id {o : ObjectId} {v : Value} (h : v ≠ .null) :
    Identity.of o v = .id v := by
  unfold Identity.of
  cases v with
  | null => exact absurd rfl h
  | _ => rfl

namespace ObjectStore

variable {s : ObjectStore schema} {o : ObjectId} {type : TypeName} {name : String}

theorem contains_iff : s.contains o = true ↔ ∃ stored, s.get? o = some stored := by
  show s.objects.contains o = true ↔ ∃ stored, s.objects[o]? = some stored
  rw [Std.ExtTreeMap.contains_eq_isSome_getElem?, Option.isSome_iff_exists]

theorem contains_eq_false_iff : s.contains o = false ↔ s.get? o = none := by
  rw [← Bool.not_eq_true, contains_iff, Option.eq_none_iff_forall_ne_some]
  simp

theorem runtimeType_eq_ok :
    s.runtimeType o = .ok type ↔ ∃ stored, s.get? o = some stored ∧ stored.type = type := by
  unfold runtimeType object
  cases s.get? o with
  | none => simp [bind, Except.bind]
  | some stored => simp [bind, Except.bind, pure, Except.pure]

/-- Live objects are those that have a runtime type. -/
theorem contains_iff_runtimeType :
    s.contains o = true ↔ ∃ type, s.runtimeType o = .ok type := by
  simp only [contains_iff, runtimeType_eq_ok, exists_comm, exists_eq_right']

theorem mem_keys_of_runtimeType (h : s.runtimeType o = .ok type) : o ∈ s.objects.keys := by
  have hlive : s.contains o = true := contains_iff_runtimeType.mpr ⟨type, h⟩
  exact Std.ExtTreeMap.mem_keys.mpr (Std.ExtTreeMap.mem_iff_contains.mpr hlive)

/-! ## Properties -/

theorem read_eq_ok {v : Value} :
    s.read o name = .ok v ↔ ∃ stored, s.get? o = some stored ∧
      (schema.property? stored.type name).isSome = true ∧
        stored.properties.getD name .null = v := by
  unfold read object requireProperty
  cases s.get? o with
  | none => simp [bind, Except.bind]
  | some stored =>
      by_cases hdeclared : (schema.property? stored.type name).isSome = true <;>
        simp [hdeclared, bind, Except.bind, pure, Except.pure]

theorem read_eq_error_of_undeclared (ho : s.runtimeType o = .ok type)
    (hname : schema.property? type name = none) :
    s.read o name = .error (.unknownProperty type name) := by
  obtain ⟨stored, hstored, rfl⟩ := runtimeType_eq_ok.mp ho
  have hobject : s.object o = .ok stored := by rw [object, hstored]
  have hrefused : requireProperty schema stored.type name =
      .error (.unknownProperty stored.type name) := by
    rw [requireProperty, hname]
    rfl
  rw [read, hobject]
  show (requireProperty schema stored.type name >>= _) = _
  rw [hrefused]
  rfl

/-- What can be read is declared on the type of the object. -/
theorem exists_runtimeType_of_read {v : Value} (hv : s.read o name = .ok v) :
    ∃ type, s.runtimeType o = .ok type ∧ (schema.property? type name).isSome = true := by
  obtain ⟨stored, hstored, hdeclared, -⟩ := read_eq_ok.mp hv
  exact ⟨stored.type, runtimeType_eq_ok.mpr ⟨stored, hstored, rfl⟩, hdeclared⟩

theorem exists_read_of_property? (ho : s.runtimeType o = .ok type)
    (hname : (schema.property? type name).isSome = true) : ∃ v, s.read o name = .ok v := by
  obtain ⟨stored, hstored, rfl⟩ := runtimeType_eq_ok.mp ho
  exact ⟨_, read_eq_ok.mpr ⟨stored, hstored, hname, rfl⟩⟩

/-! ## Identities -/

theorem identity_eq_of_idProperty? (ho : s.runtimeType o = .ok type)
    (hid : schema.idProperty? type = some name) :
    s.identity o = (s.read o name).map (Identity.of o) := by
  simp only [identity, ho, hid, bind, Except.bind]
  cases s.read o name with
  | error err => rfl
  | ok v => cases v <;> rfl

theorem identity_eq_of_none (ho : s.runtimeType o = .ok type)
    (hid : schema.idProperty? type = none) : s.identity o = .ok (.object o) := by
  simp only [identity, ho, hid, bind, Except.bind]
  rfl

/-- Objects have an identity unless their type has an identifier that is not a property of
it. -/
theorem exists_identity_iff (ho : s.runtimeType o = .ok type) :
    (∃ identity, s.identity o = .ok identity) ↔
      ∀ name, schema.idProperty? type = some name → (schema.property? type name).isSome = true := by
  cases hid : schema.idProperty? type with
  | none =>
      constructor
      · intro _ name hname
        cases hname
      · intro _
        exact ⟨_, identity_eq_of_none ho hid⟩
  | some name =>
      rw [identity_eq_of_idProperty? ho hid]
      constructor
      · rintro ⟨identity, hidentity⟩ _ ⟨⟩
        cases hread : s.read o name with
        | error e =>
            rw [hread] at hidentity
            cases hidentity
        | ok v =>
            obtain ⟨type', ho', hdeclared⟩ := exists_runtimeType_of_read hread
            cases ho.symm.trans ho'
            exact hdeclared
      · intro hdeclared
        obtain ⟨v, hv⟩ := exists_read_of_property? ho (hdeclared name rfl)
        exact ⟨Identity.of o v, by rw [hv, Except.map]⟩

theorem reference_eq_ok {r : EntityRef} :
    s.reference o = .ok r ↔ s.runtimeType o = .ok r.type ∧ s.identity o = .ok r.identity := by
  unfold reference
  simp only [Except.bind_eq_ok, Except.pure_eq_ok]
  constructor
  · rintro ⟨type, htype, identity, hidentity, rfl⟩
    exact ⟨htype, hidentity⟩
  · rintro ⟨htype, hidentity⟩
    exact ⟨_, htype, _, hidentity, rfl⟩

theorem exists_reference_iff (ho : s.runtimeType o = .ok type) :
    (∃ r, s.reference o = .ok r) ↔
      ∀ name, schema.idProperty? type = some name → (schema.property? type name).isSome = true := by
  rw [← exists_identity_iff ho]
  constructor
  · rintro ⟨r, hr⟩
    exact ⟨r.identity, (reference_eq_ok.mp hr).2⟩
  · rintro ⟨identity, hidentity⟩
    exact ⟨⟨type, identity⟩, reference_eq_ok.mpr ⟨ho, hidentity⟩⟩

/-! ## Replacing an object -/

theorem get?_put {stored : StoredObject} (h : schema.isConcrete stored.type = true)
    (o' : ObjectId) : (s.put o stored h).get? o' = if o = o' then some stored else s.get? o' := by
  show (s.objects.insert o stored)[o']? = _
  rw [Std.ExtTreeMap.getElem?_insert]
  simp only [Std.LawfulEqCmp.compare_eq_iff_eq]
  rfl

theorem runtimeType_put (stored : StoredObject) (h : schema.isConcrete stored.type = true) :
    (s.put o stored h).runtimeType o = .ok stored.type :=
  runtimeType_eq_ok.mpr ⟨stored, (get?_put h o).trans (if_pos rfl), rfl⟩

end ObjectStore

end IndexSync
