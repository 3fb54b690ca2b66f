import IndexSync.Plan
import IndexSync.Proofs.Schema.Inheritance
import IndexSync.Proofs.Store.Writes
import IndexSync.Proofs.Typing.Values
import IndexSync.Proofs.Walk.Nodes
import IndexSync.Sample.Boxes
import IndexSync.Sample.Traders

/-!
# Identities of live objects

An identifier is named apart from the properties, and it is inherited on its own.  Objects
are told apart by it only if it can be read on them.

- `Schema.ReadsIdentifiers` — the identifier of each concrete type is a property of it.
- `readsIdentifiers_iff` — nothing less gives all objects an identity, whatever calls have
  made of a store.
- `exists_identity_of_live` — with that, live objects have identities, and with them the
  references that walks and plans ask for.
- `not_identified` — an identifier that is no property is accepted all the same.
-/

namespace IndexSync

variable {schema : Schema}

/-- Every identifier that a concrete type has, its own or an inherited one, is one of its
properties. -/
def Schema.ReadsIdentifiers (m : Schema) : Prop :=
  ∀ type name, m.isConcrete type = true → m.idProperty? type = some name →
    (m.property? type name).isSome = true

/-- It is enough that each type declares the identifier it names. -/
theorem Schema.Identifies.readsIdentifiers {m : Schema} (hm : m.Coherent) (h : m.Identifies) :
    m.ReadsIdentifiers :=
  fun _ _ _ hid => h.property? hm hid

/-- A mark on an object that has a reference finds that. -/
theorem Walk.follow_of_reference {w : Walk schema} {n : NodeId} {f : Footing} {o : ObjectId}
    {r : EntityRef} (hnode : w.arena.get? n = some .reindex) (hf : f.toValue = .ref o)
    (hr : w.store.reference o = .ok r) :
    w.follow (n, f) = .ok { next := [], found := some r } := by
  unfold follow
  simp only [hnode, onObject_eq_ok]
  exact .inr ⟨o, hf, by rw [hr]; rfl⟩

namespace ObjectStore

variable {s : ObjectStore schema} {o : ObjectId} {type : TypeName}

/-- An object can be created of every concrete type. -/
theorem exists_created (h : schema.isConcrete type = true) :
    ((empty schema).afterAll [.insertAt o type []]).runtimeType o = .ok type := by
  have hwrite : (empty schema).write (.insertAt o type []) = .ok _ :=
    insertAt_eq_ok.mpr ⟨∅, h, by simp [get?, empty], rfl, rfl⟩
  have hafter : (empty schema).afterAll [.insertAt o type []] = _ := after_eq_of_ok hwrite
  rw [hafter]
  exact runtimeType_put { type, properties := ∅ } h

/-- No schema without it gives identities to all objects: one call is enough to make an
object that has none. -/
theorem readsIdentifiers_iff :
    schema.ReadsIdentifiers ↔
      ∀ calls o, ((empty schema).afterAll calls).contains o = true →
        ∃ identity, ((empty schema).afterAll calls).identity o = .ok identity := by
  constructor
  · intro h calls o ho
    obtain ⟨type, htype⟩ := contains_iff_runtimeType.mp ho
    exact (exists_identity_iff htype).mpr fun name =>
      h type name (isConcrete_of_runtimeType htype)
  · intro h type name hconcrete
    have htype := exists_created (o := 1) hconcrete
    exact (exists_identity_iff htype).mp (h _ 1 (contains_iff_runtimeType.mpr ⟨type, htype⟩)) name

/-- If identifiers are properties of the types that have them, every live object has an
identity: the value of the identifier, or else the object itself, while that is null or if
its type has none.  Then it has a reference too, so that marking the object during a walk
cannot fail, and neither can a plan that asks for its own reference. -/
theorem exists_identity_of_live (h : schema.ReadsIdentifiers) (s : ObjectStore schema)
    {o : ObjectId} (ho : s.contains o = true) :
    ∃ type identity, s.runtimeType o = .ok type ∧ s.identity o = .ok identity ∧
      ((∃ name v, schema.idProperty? type = some name ∧ s.read o name = .ok v ∧
          v ≠ .null ∧ identity = .id v) ∨
        (∀ name, schema.idProperty? type = some name → s.read o name = .ok .null) ∧
          identity = .object o) ∧
      s.reference o = .ok { type, identity } ∧
      (∀ e, (Plan.ownReference s o).run.run e = (.ok { type, identity }, e)) ∧
      ∀ (w : Walk schema) n f, w.store = s → w.arena.get? n = some .reindex →
        f.toValue = .ref o →
          w.follow (n, f) = .ok { next := [], found := some { type, identity } } := by
  obtain ⟨type, htype⟩ := contains_iff_runtimeType.mp ho
  obtain ⟨identity, hidentity⟩ := (exists_identity_iff htype).mpr fun name =>
    h type name (isConcrete_of_runtimeType htype)
  have hreference : s.reference o = .ok { type, identity } :=
    reference_eq_ok.mpr ⟨htype, hidentity⟩
  refine ⟨type, identity, htype, hidentity, ?value, hreference, ?own, ?mark⟩
  case value =>
    cases hid : schema.idProperty? type with
    | none =>
        rw [identity_eq_of_none htype hid] at hidentity
        cases hidentity
        exact .inr ⟨nofun, rfl⟩
    | some name =>
        have hdeclared := h type name (isConcrete_of_runtimeType htype) hid
        obtain ⟨v, hv⟩ := exists_read_of_property? htype hdeclared
        rw [identity_eq_of_idProperty? htype hid, hv] at hidentity
        obtain rfl : Identity.of o v = identity := Except.ok.inj hidentity
        by_cases hnull : v = .null
        · subst hnull
          refine .inr ⟨?_, rfl⟩
          rintro _ ⟨⟩
          exact hv
        · exact .inl ⟨name, v, rfl, hv, hnull, Identity.of_eq_id hnull⟩
  case own =>
    intro e
    unfold Plan.ownReference
    rw [hreference]
    rfl
  case mark =>
    rintro w n f rfl hnode hf
    exact Walk.follow_of_reference hnode hf hreference

open Sample

theorem exists_identity_of_live_traded :
    tradersSchema.ReadsIdentifiers ∧ traded.contains 1 = true ∧
      ∃ type identity, traded.runtimeType 1 = .ok type ∧ traded.identity 1 = .ok identity ∧
        traded.reference 1 = .ok { type, identity } := by
  have hm : tradersSchema.Coherent := Schema.coherent_of_accepted (Except.eq_ok_value _)
  have hidentifies : tradersSchema.Identifies := by
    unfold Schema.Identifies
    decide +kernel
  have hreads := hidentifies.readsIdentifiers hm
  have hlive : traded.contains 1 = true := by decide +kernel
  obtain ⟨type, identity, htype, hidentity, -, hreference, -⟩ :=
    exists_identity_of_live hreads traded hlive
  exact ⟨hreads, hlive, type, identity, htype, hidentity, hreference⟩

/-- Boxes are accepted although there is no property `code`.  A box can be created, but not
told apart: its identity is not the object itself but an error. -/
theorem not_identified :
    Schema.ofDefinitions boxes = .ok boxesSchema ∧
      boxesSchema.idProperty? "Box" = some "code" ∧
      (empty boxesSchema).insert "Box" [] = .ok (1, boxed) ∧
      boxed.contains 1 = true ∧
      boxed.identity 1 = .error (.unknownProperty "Box" "code") ∧
      boxed.reference 1 = .error (.unknownProperty "Box" "code") ∧
      ∀ e, (Plan.ownReference boxed 1).run.run e =
        (.error (.data (.unknownProperty "Box" "code")), e) := by
  have htype : boxed.runtimeType 1 = .ok "Box" := Except.eq_ok_of_toOption (by decide +kernel)
  have hid : boxesSchema.idProperty? "Box" = some "code" := by decide +kernel
  have hidentity : boxed.identity 1 = .error (.unknownProperty "Box" "code") := by
    rw [identity_eq_of_idProperty? htype hid,
      read_eq_error_of_undeclared htype (by decide +kernel)]
    rfl
  have hreference : boxed.reference 1 = .error (.unknownProperty "Box" "code") := by
    rw [reference, htype, hidentity]
    rfl
  have hinsert : (empty boxesSchema).insert "Box" [] = .ok (1, boxed) :=
    Except.eq_ok_of_toOption (by decide +kernel)
  refine ⟨Except.eq_ok_value _, hid, hinsert, by decide +kernel, hidentity, hreference, ?_⟩
  intro e
  rw [Plan.ownReference, hreference]
  rfl

end ObjectStore

end IndexSync
