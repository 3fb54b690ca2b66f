import IndexSync.Proofs.Typing.Values
import IndexSync.Proofs.Walk.Nodes

/-!
# Faulty places

A place can be followed unless something is wrong with it, and what that is can be told from
the node, the value stood on and the store.

- `Walk.Faulty` — what can be wrong with a place.
- `Walk.followed_or_faulty`, `Walk.Faulty.ne_ok` — a place is followed exactly if it is not
  faulty.
-/

namespace IndexSync

variable {schema : Schema}

/-- Whether a node goes on from an object, and not from any other value. -/
def Node.takesObject : Node → Bool
  | type _ _ | cast _ _ | property _ _ | reindex => true
  | extract _ _ | union _ | ifDirty _ _ | pending => false

/-- The property that a node reads from objects of a type. -/
def Node.reads? (schema : Schema) (type : TypeName) : Node → Option String
  | property name _ => some name
  | reindex => schema.idProperty? type
  | Node.type _ _ | cast _ _ | extract _ _ | union _ | ifDirty _ _ | pending => none

namespace Walk

variable {w : Walk schema}

/-! ## What can be wrong -/

/-- A place that cannot be followed. -/
inductive Faulty (w : Walk schema) : Place → Prop where
  /-- There is no such node. -/
  | missing {id : NodeId} {f : Footing} : w.arena.get? id = none → Faulty w (id, f)
  /-- The node was not filled in. -/
  | pending {id : NodeId} {f : Footing} : w.arena.get? id = some .pending → Faulty w (id, f)
  /-- A node that takes an object stands on a value that is none. -/
  | notReference {id : NodeId} {f : Footing} {node : Node} : w.arena.get? id = some node →
      node.takesObject = true → f.toValue ≠ .null → (∀ o, f.toValue ≠ .ref o) → Faulty w (id, f)
  /-- The object is gone. -/
  | dangling {id : NodeId} {f : Footing} {node : Node} {o : ObjectId} :
      w.arena.get? id = some node → node.takesObject = true → f.toValue = .ref o →
      w.store.get? o = none → Faulty w (id, f)
  /-- The node reads a property that the type of the object does not have. -/
  | undeclared {id : NodeId} {f : Footing} {node : Node} {o : ObjectId} {type : TypeName}
      {name : String} : w.arena.get? id = some node → f.toValue = .ref o →
      w.store.runtimeType o = .ok type → node.reads? schema type = some name →
      schema.property? type name = none → Faulty w (id, f)
  /-- The object is of a type that cannot come to the node. -/
  | unexpectedType {id : NodeId} {f : Footing} {static : TypeName}
      {dispatch : SortedMap TypeName NodeId} {o : ObjectId} {type : TypeName} :
      w.arena.get? id = some (.type static dispatch) → f.toValue = .ref o →
      w.store.runtimeType o = .ok type → dispatch[type]? = none →
      schema.fits type static = false → Faulty w (id, f)
  /-- An extractor stands on an object. -/
  | extractorOnObject {id : NodeId} {e : Extractor} {nested : NodeId} {o : ObjectId} :
      w.arena.get? id = some (.extract e nested) → Faulty w (id, .object o)
  /-- An extractor stands on a container of another kind, or on none. -/
  | wrongContainer {id : NodeId} {e : Extractor} {nested : NodeId} {v : Value} :
      w.arena.get? id = some (.extract e nested) → e.elements? v = none → Faulty w (id, .value v)

/-- What is stood on is null, an object, or neither. -/
theorem toValue_cases (f : Footing) :
    f.toValue = .null ∨ (∃ o, f.toValue = .ref o) ∨
      f.toValue ≠ .null ∧ ∀ o, f.toValue ≠ .ref o := by
  cases f.toValue <;> simp

/-- A node that takes an object goes on from a live one, or the place is faulty. -/
theorem followed_or_faulty_of_ref {id : NodeId} {f : Footing} {node : Node} {o : ObjectId}
    {type : TypeName} (hnode : w.arena.get? id = some node) (htakes : node.takesObject = true)
    (ho : f.toValue = .ref o) (htype : w.store.runtimeType o = .ok type) :
    (∃ followed, w.follow (id, f) = .ok followed) ∨ w.Faulty (id, f) := by
  cases node with
  | type static dispatch =>
      cases hdispatch : dispatch[type]? with
      | some nested =>
          left
          simp only [follow, hnode, onObject_eq_ok, Except.bind_eq_ok, reading_eq_ok]
          exact ⟨_, .inr ⟨o, ho, type, htype, by simp only [hdispatch]; rfl⟩⟩
      | none =>
          cases hfits : schema.fits type static with
          | true =>
              left
              simp only [follow, hnode, onObject_eq_ok, Except.bind_eq_ok, reading_eq_ok]
              exact ⟨.nowhere, .inr ⟨o, ho, type, htype, by simp [hdispatch, hfits]; rfl⟩⟩
          | false => exact .inr (.unexpectedType hnode ho htype hdispatch hfits)
  | cast target nested =>
      have hmakes : w.MakesMove id (.cast target) := ⟨nested, hnode⟩
      exact .inl (follow_of_safe hmakes ⟨o, type, ho, htype⟩)
  | property name nested =>
      cases hproperty : schema.property? type name with
      | none => exact .inr (.undeclared hnode ho htype rfl hproperty)
      | some property =>
          have hmakes : w.MakesMove id (.read name) := ⟨nested, hnode⟩
          obtain ⟨v, hv⟩ := ObjectStore.exists_read_of_property? htype (by rw [hproperty]; rfl)
          exact .inl (follow_of_safe hmakes ⟨o, v, ho, hv⟩)
  | reindex =>
      by_cases hreference : ∃ r, w.store.reference o = .ok r
      · obtain ⟨r, hr⟩ := hreference
        left
        simp only [follow, hnode, onObject_eq_ok, Except.bind_eq_ok, reading_eq_ok]
        exact ⟨_, .inr ⟨o, ho, r, hr, rfl⟩⟩
      · rw [ObjectStore.exists_reference_iff htype] at hreference
        push Not at hreference
        obtain ⟨name, hname, hproperty⟩ := hreference
        exact .inr (.undeclared hnode ho htype hname (by simpa using hproperty))
  | extract | union | ifDirty | pending => cases htakes

theorem followed_or_faulty (w : Walk schema) (p : Place) :
    (∃ followed, w.follow p = .ok followed) ∨ w.Faulty p := by
  obtain ⟨id, f⟩ := p
  cases hnode : w.arena.get? id with
  | none => exact .inr (.missing hnode)
  | some node =>
      by_cases htakes : node.takesObject = true
      · rcases toValue_cases f with hnull | ⟨o, ho⟩ | ⟨hnull, href⟩
        · left
          cases node with
          | type | cast | property | reindex =>
              simp only [follow, hnode, onObject_eq_ok]
              exact ⟨_, .inl ⟨hnull, rfl⟩⟩
          | extract | union | ifDirty | pending => cases htakes
        · cases hstored : w.store.get? o with
          | none => exact .inr (.dangling hnode htakes ho hstored)
          | some stored =>
              have htype : w.store.runtimeType o = .ok stored.type :=
                ObjectStore.runtimeType_eq_ok.mpr ⟨stored, hstored, rfl⟩
              exact followed_or_faulty_of_ref hnode htakes ho htype
        · exact .inr (.notReference hnode htakes hnull href)
      · cases node with
        | type | cast | property | reindex => exact absurd rfl htakes
        | extract e nested =>
            cases f with
            | object o => exact .inr (.extractorOnObject hnode)
            | value v =>
                cases hitems : e.elements? v with
                | none => exact .inr (.wrongContainer hnode hitems)
                | some items =>
                    have hmakes : w.MakesMove id (.extract e) := ⟨nested, hnode⟩
                    exact .inl (follow_of_safe hmakes ⟨items, hitems⟩)
        | union | ifDirty =>
            left
            simp only [follow, hnode]
            exact ⟨_, rfl⟩
        | pending => exact .inr (.pending hnode)

/-- Following a node that takes an object needs a live one, with the property read. -/
theorem exists_runtimeType_of_follow {id : NodeId} {f : Footing} {node : Node} {o : ObjectId}
    {followed : Followed} (hnode : w.arena.get? id = some node)
    (htakes : node.takesObject = true) (ho : f.toValue = .ref o)
    (hfollow : w.follow (id, f) = .ok followed) :
    ∃ type, w.store.runtimeType o = .ok type ∧
      ∀ name, node.reads? schema type = some name → (schema.property? type name).isSome = true := by
  have hnull : f.toValue ≠ .null := by
    intro h
    cases ho.symm.trans h
  cases node with
  | type static dispatch =>
      simp only [follow, hnode, onObject_eq_ok, Except.bind_eq_ok, reading_eq_ok] at hfollow
      obtain ⟨o', ho', type, htype, -⟩ := hfollow.resolve_left fun h => hnull h.1
      cases ho.symm.trans ho'
      refine ⟨type, htype, ?_⟩
      intro name hname
      cases hname
  | cast target nested =>
      have hmakes : w.MakesMove id (.cast target) := ⟨nested, hnode⟩
      obtain ⟨o', type, ho', htype⟩ := safe_of_follow hmakes hnull hfollow
      cases ho.symm.trans ho'
      refine ⟨type, htype, ?_⟩
      intro name hname
      cases hname
  | property name nested =>
      have hmakes : w.MakesMove id (.read name) := ⟨nested, hnode⟩
      obtain ⟨o', v, ho', hv⟩ := safe_of_follow hmakes hnull hfollow
      cases ho.symm.trans ho'
      obtain ⟨type, htype, hdeclared⟩ := ObjectStore.exists_runtimeType_of_read hv
      refine ⟨type, htype, ?_⟩
      intro name' hname
      cases hname
      exact hdeclared
  | reindex =>
      obtain ⟨r, hr, -⟩ := found_of_reindex hnode ho hfollow
      obtain ⟨type, htype, -⟩ := Except.bind_eq_ok.mp hr
      exact ⟨type, htype, (ObjectStore.exists_reference_iff htype).mp ⟨r, hr⟩⟩
  | extract | union | ifDirty | pending => cases htakes

theorem takesObject_of_reads? {node : Node} {type : TypeName} {name : String}
    (h : node.reads? schema type = some name) : node.takesObject = true := by
  cases node with
  | property | reindex => rfl
  | type | cast | extract | union | ifDirty | pending => cases h

/-- Nothing follows from a faulty place. -/
theorem Faulty.ne_ok {p : Place} (h : w.Faulty p) (followed : Followed) :
    w.follow p ≠ .ok followed := by
  intro hfollow
  cases h with
  | missing hnode | pending hnode | extractorOnObject hnode =>
      simp only [follow, hnode] at hfollow
      cases hfollow
  | notReference hnode htakes hnull href =>
      rename_i node
      cases node with
      | type | cast | property | reindex =>
          simp only [follow, hnode, onObject_eq_ok] at hfollow
          rcases hfollow with ⟨h, -⟩ | ⟨o, h, -⟩
          · exact hnull h
          · exact href o h
      | extract | union | ifDirty | pending => cases htakes
  | dangling hnode htakes ho hstored =>
      obtain ⟨type, htype, -⟩ := exists_runtimeType_of_follow hnode htakes ho hfollow
      obtain ⟨stored, hstored', -⟩ := ObjectStore.runtimeType_eq_ok.mp htype
      cases hstored.symm.trans hstored'
  | undeclared hnode ho htype hreads hproperty =>
      have htakes := takesObject_of_reads? hreads
      obtain ⟨type', htype', hdeclared⟩ := exists_runtimeType_of_follow hnode htakes ho hfollow
      cases htype.symm.trans htype'
      have hsome := hdeclared _ hreads
      rw [hproperty] at hsome
      cases hsome
  | unexpectedType hnode ho htype hdispatch hfits =>
      simp only [follow, hnode, onObject_eq_ok, Except.bind_eq_ok, reading_eq_ok, ho] at hfollow
      rcases hfollow with ⟨h, -⟩ | ⟨o', ho', type', htype', hnext⟩
      · cases h
      · cases ho'
        cases htype.symm.trans htype'
        simp [hdispatch, hfits] at hnext
  | wrongContainer hnode hitems =>
      simp only [follow, hnode, Except.bind_eq_ok, reading_eq_ok] at hfollow
      obtain ⟨items, hitems', -⟩ := hfollow
      rw [elements?_of_elements hitems'] at hitems
      cases hitems

theorem faulty_iff {p : Place} : w.Faulty p ↔ ∃ e, w.follow p = .error e := by
  constructor
  · intro h
    cases hfollow : w.follow p with
    | error e => exact ⟨e, rfl⟩
    | ok followed => exact absurd hfollow (h.ne_ok followed)
  · rintro ⟨e, he⟩
    rcases followed_or_faulty w p with ⟨followed, hfollow⟩ | hfaulty
    · cases he.symm.trans hfollow
    · exact hfaulty

end Walk

end IndexSync
