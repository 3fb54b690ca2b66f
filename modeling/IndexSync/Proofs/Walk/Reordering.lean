import Mathlib.Data.List.Perm.Basic
import IndexSync.Proofs.Store.Writes
import IndexSync.Proofs.Walk.Faults
import IndexSync.Proofs.Walk.Termination

/-!
# Walks in another order

What a walk reaches does not depend on the order of the elements in any value, of the
children in any union, or of the nodes that it starts from.

- `Value.Reordered`, `ObjectStore.Reordered`, `Arena.Reordered`, `Walk.Reordered` — the same
  but for such orders; all are symmetric.
- `Walk.Reordered.faulty`, `Walk.Reordered.leads` — the step: places that match are faulty
  together, and lead to places that match.
- `Walk.Reordered.reachable` — the same for all places that can be reached.
-/

namespace IndexSync

variable {schema : Schema}

/-! ## Values -/

namespace Value

/-- The same value, but for the order of the elements in the containers within it.  Keys and
values of a map have an order each. -/
inductive Reordered : Value → Value → Prop where
  | refl (v : Value) : Reordered v v
  | list {xs ys zs : List Value} : List.Forall₂ Reordered xs ys → ys.Perm zs →
      Reordered (list xs) (list zs)
  | set {xs ys zs : List Value} : List.Forall₂ Reordered xs ys → ys.Perm zs →
      Reordered (set xs) (set zs)
  | array {xs ys zs : List Value} : List.Forall₂ Reordered xs ys → ys.Perm zs →
      Reordered (array xs) (array zs)
  | map {xs zs : List (Value × Value)} {keys values : List Value} :
      List.Forall₂ Reordered (xs.map (·.1)) keys → keys.Perm (zs.map (·.1)) →
      List.Forall₂ Reordered (xs.map (·.2)) values → values.Perm (zs.map (·.2)) →
      Reordered (map xs) (map zs)
  | optional {u v : Value} : Reordered u v → Reordered (optional (some u)) (optional (some v))

theorem exists_of_forall₂_perm {xs ys zs : List Value} (h : List.Forall₂ Reordered xs ys)
    (hperm : ys.Perm zs) {u : Value} (hu : u ∈ xs) : ∃ v ∈ zs, u.Reordered v := by
  obtain ⟨v, hv, huv⟩ := h.exists_right hu
  exact ⟨v, hperm.mem_iff.mp hv, huv⟩

/-- Elements can be matched the other way round if each of them can. -/
theorem exists_forall₂_symm {xs ys zs : List Value} (h : List.Forall₂ Reordered xs ys)
    (hperm : ys.Perm zs) (hsymm : ∀ u ∈ xs, ∀ {v}, u.Reordered v → v.Reordered u) :
    ∃ ws, List.Forall₂ Reordered zs ws ∧ ws.Perm xs := by
  have hback : List.Forall₂ Reordered ys xs := by
    clear hperm
    induction h with
    | nil => exact .nil
    | cons hhead _ ih =>
        refine .cons (hsymm _ List.mem_cons_self hhead) (ih ?_)
        exact fun u hu => hsymm u (List.mem_cons_of_mem _ hu)
  exact List.perm_comp_forall₂ hperm.symm hback

theorem Reordered.symm {u v : Value} (h : u.Reordered v) : v.Reordered u := by
  induction u using Value.induction generalizing v with
  | null | bool | integer | text | bytes | ref =>
      cases h
      exact .refl _
  | list items ih =>
      cases h with
      | refl => exact .refl _
      | list helems hperm =>
          obtain ⟨ws, hws, hback⟩ := exists_forall₂_symm helems hperm ih
          exact .list hws hback
  | set items ih =>
      cases h with
      | refl => exact .refl _
      | set helems hperm =>
          obtain ⟨ws, hws, hback⟩ := exists_forall₂_symm helems hperm ih
          exact .set hws hback
  | array items ih =>
      cases h with
      | refl => exact .refl _
      | array helems hperm =>
          obtain ⟨ws, hws, hback⟩ := exists_forall₂_symm helems hperm ih
          exact .array hws hback
  | map entries ih =>
      cases h with
      | refl => exact .refl _
      | map hkeys hkeysPerm hvalues hvaluesPerm =>
          have ihkeys : ∀ u ∈ entries.map (·.1), ∀ {v}, u.Reordered v → v.Reordered u := by
            intro u hu
            obtain ⟨e, he, rfl⟩ := List.mem_map.mp hu
            exact (ih e he).1
          have ihvalues : ∀ u ∈ entries.map (·.2), ∀ {v}, u.Reordered v → v.Reordered u := by
            intro u hu
            obtain ⟨e, he, rfl⟩ := List.mem_map.mp hu
            exact (ih e he).2
          obtain ⟨ks, hks, hkeysBack⟩ := exists_forall₂_symm hkeys hkeysPerm ihkeys
          obtain ⟨vs, hvs, hvaluesBack⟩ := exists_forall₂_symm hvalues hvaluesPerm ihvalues
          exact .map hks hkeysBack hvs hvaluesBack
  | optional inner ih =>
      cases h with
      | refl => exact .refl _
      | optional h => exact .optional (ih _ rfl h)

theorem Reordered.eq_null {v : Value} (h : null.Reordered v) : v = null := by
  cases h
  rfl

theorem Reordered.eq_ref {o : ObjectId} {v : Value} (h : (ref o).Reordered v) : v = ref o := by
  cases h
  rfl

theorem Reordered.isNull_eq {u v : Value} (h : u.Reordered v) : v.isNull = u.isNull := by
  cases h <;> rfl

/-- What can be taken out of a value can be taken out of it in another order. -/
theorem Reordered.elements? {u v : Value} (h : u.Reordered v) {e : Extractor}
    {items : List Value} (hitems : e.elements? u = some items) :
    ∃ items', e.elements? v = some items' ∧ ∀ x ∈ items, ∃ y ∈ items', x.Reordered y := by
  cases h with
  | refl => exact ⟨items, hitems, fun x hx => ⟨x, hx, .refl x⟩⟩
  | list helems hperm | set helems hperm | array helems hperm =>
      cases e <;> cases hitems
      exact ⟨_, rfl, fun x hx => exists_of_forall₂_perm helems hperm hx⟩
  | map hkeys hkeysPerm hvalues hvaluesPerm =>
      cases e <;> cases hitems
      · exact ⟨_, rfl, fun x hx => exists_of_forall₂_perm hvalues hvaluesPerm hx⟩
      · exact ⟨_, rfl, fun x hx => exists_of_forall₂_perm hkeys hkeysPerm hx⟩
  | @optional u v h =>
      cases e <;> cases hitems
      refine ⟨_, rfl, fun x hx => ⟨v, List.mem_singleton_self v, ?_⟩⟩
      rw [List.mem_singleton.mp hx]
      exact h

end Value

/-! ## Stores -/

/-- Objects of one type, whose values are the same but for the order of elements. -/
structure StoredObject.Reordered (a b : StoredObject) : Prop where
  type : b.type = a.type
  values : ∀ name, (a.properties.getD name .null).Reordered (b.properties.getD name .null)

theorem StoredObject.Reordered.refl (a : StoredObject) : a.Reordered a :=
  ⟨rfl, fun _ => .refl _⟩

theorem StoredObject.Reordered.of_insert {a : StoredObject} {name : String} {v : Value}
    (h : (a.properties.getD name .null).Reordered v) :
    a.Reordered { a with properties := a.properties.insert name v } where
  type := rfl
  values other := by
    rw [Std.ExtTreeMap.getD_insert]
    split
    · rename_i heq
      rw [Std.LawfulEqCmp.compare_eq_iff_eq] at heq
      subst heq
      exact h
    · exact .refl _

namespace ObjectStore

/-- Stores of the same objects, but for the order of elements in their values. -/
structure Reordered (s t : ObjectStore schema) : Prop where
  gone : ∀ o, t.get? o = none ↔ s.get? o = none
  stored : ∀ o a b, s.get? o = some a → t.get? o = some b → a.Reordered b

variable {s t : ObjectStore schema} {o : ObjectId}

theorem Reordered.refl (s : ObjectStore schema) : s.Reordered s where
  gone _ := Iff.rfl
  stored o a b ha hb := by
    cases ha.symm.trans hb
    exact .refl a

theorem Reordered.symm (h : s.Reordered t) : t.Reordered s where
  gone o := (h.gone o).symm
  stored o a b ha hb := by
    have hsame := h.stored o b a hb ha
    exact ⟨hsame.type.symm, fun name => (hsame.values name).symm⟩

theorem Reordered.exists_stored (h : s.Reordered t) {a : StoredObject} (ha : s.get? o = some a) :
    ∃ b, t.get? o = some b ∧ a.Reordered b := by
  cases hb : t.get? o with
  | none => cases ha.symm.trans ((h.gone o).mp hb)
  | some b => exact ⟨b, rfl, h.stored o a b ha hb⟩

theorem Reordered.runtimeType_eq (h : s.Reordered t) (o : ObjectId) :
    t.runtimeType o = s.runtimeType o := by
  unfold runtimeType object
  cases ha : s.get? o with
  | none => rw [(h.gone o).mpr ha]
  | some a =>
      obtain ⟨b, hb, hsame⟩ := h.exists_stored ha
      rw [hb]
      exact congrArg Except.ok hsame.type

/-- References tell the order within an identifier, and no other. -/
theorem Reordered.reference_eq (h : s.Reordered t) (hidentity : t.identity o = s.identity o) :
    t.reference o = s.reference o := by
  unfold reference
  rw [h.runtimeType_eq, hidentity]

theorem Reordered.read (h : s.Reordered t) {name : String} {u : Value}
    (hu : s.read o name = .ok u) : ∃ v, t.read o name = .ok v ∧ u.Reordered v := by
  obtain ⟨a, ha, hdeclared, rfl⟩ := read_eq_ok.mp hu
  obtain ⟨b, hb, hsame⟩ := h.exists_stored ha
  rw [← hsame.type] at hdeclared
  exact ⟨_, read_eq_ok.mpr ⟨b, hb, hdeclared, rfl⟩, hsame.values name⟩

/-- Setting a property to its value in another order. -/
theorem Reordered.of_set {name : String} {v : Value} {r : Value × ObjectStore schema}
    (h : s.set o name v = .ok r) (hv : r.1.Reordered v) : s.Reordered r.2 := by
  obtain ⟨old, u⟩ := r
  obtain ⟨stored, hstored, -, rfl, rfl⟩ := set_eq_ok.mp h
  refine ⟨fun o' => ?_, fun o' a b ha hb => ?_⟩
  · rw [get?_put]
    split
    · rename_i heq
      rw [← heq, hstored]
      simp
    · rfl
  · rw [get?_put] at hb
    split at hb
    · rename_i heq
      subst heq
      cases hstored.symm.trans ha
      cases hb
      exact .of_insert hv
    · cases ha.symm.trans hb
      exact .refl a

end ObjectStore

/-! ## Arenas -/

/-- Whether a node has an order of its own. -/
def Node.isUnion : Node → Bool
  | union _ => true
  | type _ _ | cast _ _ | property _ _ | extract _ _ | ifDirty _ _ | reindex | pending => false

/-- The same node, but for the order of the children of a union. -/
inductive Node.Reordered : Node → Node → Prop where
  | refl (node : Node) : Reordered node node
  | union {children children' : List NodeId} : children.Perm children' →
      Reordered (union children) (union children')

namespace Node

theorem Reordered.symm {m n : Node} (h : m.Reordered n) : n.Reordered m := by
  cases h with
  | refl => exact .refl _
  | union hperm => exact .union hperm.symm

theorem Reordered.mem_onward_iff {m n : Node} (h : m.Reordered n) (id : NodeId) :
    id ∈ n.onward ↔ id ∈ m.onward := by
  cases h with
  | refl => rfl
  | union hperm => exact hperm.mem_iff.symm

end Node

namespace Arena

/-- The same nodes, but for the order of the children of unions. -/
structure Reordered (a b : Arena) : Prop where
  missing : ∀ id, b.get? id = none ↔ a.get? id = none
  node : ∀ id m n, a.get? id = some m → b.get? id = some n → m.Reordered n

variable {a b : Arena}

theorem Reordered.refl (a : Arena) : a.Reordered a where
  missing _ := Iff.rfl
  node id m n hm hn := by
    cases hm.symm.trans hn
    exact .refl m

theorem Reordered.symm (h : a.Reordered b) : b.Reordered a where
  missing id := (h.missing id).symm
  node id m n hm hn := (h.node id n m hn hm).symm

theorem Reordered.exists_node (h : a.Reordered b) {id : NodeId} {m : Node}
    (hm : a.get? id = some m) : ∃ n, b.get? id = some n ∧ m.Reordered n := by
  cases hn : b.get? id with
  | none => cases hm.symm.trans ((h.missing id).mp hn)
  | some n => exact ⟨n, rfl, h.node id m n hm hn⟩

/-- Only unions have an order. -/
theorem Reordered.get?_eq_some (h : a.Reordered b) {id : NodeId} {m : Node}
    (hm : a.get? id = some m) (hunion : m.isUnion = false) : b.get? id = some m := by
  obtain ⟨n, hn, hsame⟩ := h.exists_node hm
  cases hsame with
  | refl => exact hn
  | union => cases hunion

theorem Reordered.get?_of_takesObject (h : a.Reordered b) {id : NodeId} {m : Node}
    (hm : a.get? id = some m) (htakes : m.takesObject = true) : b.get? id = some m := by
  apply h.get?_eq_some hm
  cases m with
  | union => cases htakes
  | type | cast | property | extract | ifDirty | reindex | pending => rfl

theorem Reordered.size_eq (h : a.Reordered b) : b.size = a.size := by
  have hsize : ∀ id, b.size ≤ id ↔ a.size ≤ id := by
    intro id
    have hmissing := h.missing id
    rwa [get?, get?, Array.getElem?_eq_none_iff, Array.getElem?_eq_none_iff] at hmissing
  exact Nat.le_antisymm ((hsize a.size).mpr (Nat.le_refl _)) ((hsize b.size).mp (Nat.le_refl _))

theorem Reordered.shallow (h : a.Reordered b) {n : Nat} {id : NodeId} (hs : a.Shallow n id) :
    b.Shallow n id := by
  induction hs with
  | intro _ ih =>
      refine .intro fun n hn next hnext => ?_
      obtain ⟨m, hm, hsame⟩ := h.symm.exists_node hn
      exact ih m hm next ((hsame.mem_onward_iff next).mpr hnext)

end Arena

/-! ## Places -/

/-- Standing on the same, but for the order of elements. -/
inductive Footing.Reordered : Footing → Footing → Prop where
  | object (o : ObjectId) : Reordered (object o) (object o)
  | value {u v : Value} : u.Reordered v → Reordered (value u) (value v)

namespace Footing

variable {f g : Footing}

theorem Reordered.refl (f : Footing) : f.Reordered f := by
  cases f with
  | object o => exact .object o
  | value v => exact .value (.refl v)

theorem Reordered.symm (h : f.Reordered g) : g.Reordered f := by
  cases h with
  | object o => exact .object o
  | value h => exact .value h.symm

theorem Reordered.toValue (h : f.Reordered g) : f.toValue.Reordered g.toValue := by
  cases h with
  | object o => exact .refl _
  | value h => exact h

theorem Reordered.toValue_eq_ref (h : f.Reordered g) {o : ObjectId} (ho : f.toValue = .ref o) :
    g.toValue = .ref o := by
  have hvalue := h.toValue
  rw [ho] at hvalue
  exact hvalue.eq_ref

theorem Reordered.toValue_eq_null (h : f.Reordered g) (hnull : f.toValue = .null) :
    g.toValue = .null := by
  have hvalue := h.toValue
  rw [hnull] at hvalue
  exact hvalue.eq_null

end Footing

/-- The same node at the same footing, but for the order of elements. -/
structure Place.Reordered (p q : Place) : Prop where
  node : q.1 = p.1
  footing : p.2.Reordered q.2

/-! ## Walks -/

namespace Walk

/-- Walks through the same, but for the order of children and elements. -/
structure Reordered (w w' : Walk schema) : Prop where
  arena : w.arena.Reordered w'.arena
  store : w.store.Reordered w'.store
  dirty : w'.dirty = w.dirty

variable {w w' : Walk schema} {p q : Place}

theorem Reordered.symm (h : w.Reordered w') : w'.Reordered w :=
  ⟨h.arena.symm, h.store.symm, h.dirty.symm⟩

theorem Reordered.faulty (h : w.Reordered w') (hpq : Place.Reordered p q) (hp : w.Faulty p) :
    w'.Faulty q := by
  obtain ⟨id, f⟩ := p
  obtain ⟨id', g⟩ := q
  obtain ⟨rfl, hfooting⟩ : id' = id ∧ f.Reordered g := ⟨hpq.node, hpq.footing⟩
  cases hp with
  | missing hnode => exact .missing ((h.arena.missing _).mpr hnode)
  | pending hnode => exact .pending (h.arena.get?_eq_some hnode rfl)
  | notReference hnode htakes hnull href =>
      refine .notReference (h.arena.get?_of_takesObject hnode htakes) htakes ?_ fun o ho => ?_
      · exact fun hg => hnull (hfooting.symm.toValue_eq_null hg)
      · exact href o (hfooting.symm.toValue_eq_ref ho)
  | dangling hnode htakes ho hstored =>
      have hnode' := h.arena.get?_of_takesObject hnode htakes
      exact .dangling hnode' htakes (hfooting.toValue_eq_ref ho) ((h.store.gone _).mpr hstored)
  | undeclared hnode ho htype hreads hproperty =>
      have hnode' := h.arena.get?_of_takesObject hnode (takesObject_of_reads? hreads)
      have htype' := (h.store.runtimeType_eq _).trans htype
      exact .undeclared hnode' (hfooting.toValue_eq_ref ho) htype' hreads hproperty
  | unexpectedType hnode ho htype hdispatch hfits =>
      have hnode' := h.arena.get?_eq_some hnode rfl
      have htype' := (h.store.runtimeType_eq _).trans htype
      exact .unexpectedType hnode' (hfooting.toValue_eq_ref ho) htype' hdispatch hfits
  | extractorOnObject hnode =>
      cases hfooting
      exact .extractorOnObject (h.arena.get?_eq_some hnode rfl)
  | wrongContainer hnode hitems =>
      cases hfooting with
      | value hvalue =>
          refine .wrongContainer (h.arena.get?_eq_some hnode rfl) ?_
          by_contra hsome
          obtain ⟨items, hitems'⟩ := Option.ne_none_iff_exists'.mp hsome
          obtain ⟨items', hitems', -⟩ := hvalue.symm.elements? hitems'
          cases hitems.symm.trans hitems'

theorem Reordered.admits (h : w.Reordered w') {relevant : OrdinalSet} (hw : w.Admits relevant) :
    w'.Admits relevant := by
  unfold Admits blocks at hw ⊢
  rw [h.dirty]
  exact hw

/-- Where a place leads, a matching one leads to a matching one. -/
theorem Reordered.leads (h : w.Reordered w') (hpq : Place.Reordered p q) {p' : Place}
    (hlead : w.Leads p p') : ∃ q', w'.Leads q q' ∧ Place.Reordered p' q' := by
  obtain ⟨id, f⟩ := p
  obtain ⟨id', g⟩ := q
  obtain ⟨rfl, hfooting⟩ : id' = id ∧ f.Reordered g := ⟨hpq.node, hpq.footing⟩
  cases hnode : w.arena.get? id' with
  | none =>
      obtain ⟨_, hfollow, -⟩ := hlead
      simp [follow, hnode] at hfollow
  | some node =>
      cases node with
      | type static dispatch =>
          obtain ⟨o, type, nested, ho, htype, hnested, rfl⟩ := (leads_type hnode).mp hlead
          have hnode' := h.arena.get?_eq_some hnode rfl
          have hlead' := (leads_type hnode').mpr ⟨o, type, nested, hfooting.toValue_eq_ref ho,
            (h.store.runtimeType_eq _).trans htype, hnested, rfl⟩
          exact ⟨_, hlead', rfl, .refl _⟩
      | cast target nested =>
          obtain ⟨o, ho, ⟨type, htype, hfits⟩, rfl⟩ := (leads_cast hnode).mp hlead
          have hnode' := h.arena.get?_eq_some hnode rfl
          have hlead' := (leads_cast hnode').mpr ⟨o, hfooting.toValue_eq_ref ho,
            ⟨type, (h.store.runtimeType_eq _).trans htype, hfits⟩, rfl⟩
          exact ⟨_, hlead', rfl, .refl _⟩
      | property name nested =>
          obtain ⟨u, ⟨o, ho, hu, hnull⟩, rfl⟩ := (leads_property hnode).mp hlead
          have hnode' := h.arena.get?_eq_some hnode rfl
          obtain ⟨v, hv, huv⟩ := h.store.read hu
          have hlead' := (leads_property hnode').mpr ⟨v, ⟨o, hfooting.toValue_eq_ref ho, hv,
            huv.isNull_eq.trans hnull⟩, rfl⟩
          exact ⟨_, hlead', rfl, .value huv⟩
      | extract e nested =>
          obtain ⟨u, ⟨items, hitems, hu, hnull⟩, rfl⟩ := (leads_extract hnode).mp hlead
          have hnode' := h.arena.get?_eq_some hnode rfl
          obtain ⟨items', hitems', hmatch⟩ := hfooting.toValue.elements? hitems
          obtain ⟨v, hv, huv⟩ := hmatch u hu
          have hlead' := (leads_extract hnode').mpr ⟨v, ⟨items', hitems', hv,
            huv.isNull_eq.trans hnull⟩, rfl⟩
          exact ⟨_, hlead', rfl, .value huv⟩
      | union children =>
          obtain ⟨child, hchild, rfl⟩ := (leads_union hnode).mp hlead
          obtain ⟨node', hnode', hsame⟩ := h.arena.exists_node hnode
          cases hsame with
          | refl => exact ⟨_, (leads_union hnode').mpr ⟨child, hchild, rfl⟩, rfl, hfooting⟩
          | union hperm =>
              have hchild' := hperm.mem_iff.mp hchild
              exact ⟨_, (leads_union hnode').mpr ⟨child, hchild', rfl⟩, rfl, hfooting⟩
      | ifDirty relevant nested =>
          obtain ⟨hadmits, rfl⟩ := (leads_ifDirty hnode).mp hlead
          have hnode' := h.arena.get?_eq_some hnode rfl
          exact ⟨_, (leads_ifDirty hnode').mpr ⟨h.admits hadmits, rfl⟩, rfl, hfooting⟩
      | reindex => exact absurd hlead (not_leads_reindex hnode)
      | pending =>
          obtain ⟨_, hfollow, -⟩ := hlead
          simp [follow, hnode] at hfollow

theorem Reordered.reaches (h : w.Reordered w') {n : Nat} {p' : Place} (hreach : w.Reaches n p p')
    (hpq : Place.Reordered p q) : ∃ q', w'.Reaches n q q' ∧ Place.Reordered p' q' := by
  induction hreach generalizing q with
  | refl => exact ⟨q, .refl q, hpq⟩
  | head hlead _ ih =>
      obtain ⟨mid, hmid, hsame⟩ := h.leads hpq hlead
      obtain ⟨q', hq', hsame'⟩ := ih hsame
      exact ⟨q', .head hmid hq', hsame'⟩

variable {nodes nodes' : List NodeId} {object : ObjectId}

/-- What can be reached can be reached through the same in another order. -/
theorem Reordered.reachable (h : w.Reordered w') (hnodes : nodes ⊆ nodes')
    (hp : w.Reachable nodes object p) :
    ∃ q, w'.Reachable nodes' object q ∧ Place.Reordered p q := by
  obtain ⟨node, hnode, n, hreach⟩ := hp
  obtain ⟨q, hq, hpq⟩ := h.reaches hreach ⟨rfl, .refl _⟩
  exact ⟨q, ⟨node, hnodes hnode, n, hq⟩, hpq⟩

theorem Reordered.faultless (h : w.Reordered w') (hnodes : nodes' ⊆ nodes)
    (hfaultless : ∀ p, w.Reachable nodes object p → ¬ w.Faulty p) :
    ∀ q, w'.Reachable nodes' object q → ¬ w'.Faulty q := by
  intro q hq hfaulty
  obtain ⟨p, hp, hqp⟩ := h.symm.reachable hnodes hq
  exact hfaultless p hp (h.symm.faulty hqp hfaulty)

end Walk

end IndexSync
