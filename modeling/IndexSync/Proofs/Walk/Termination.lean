import Mathlib.Algebra.Ring.Nat
import Mathlib.Data.List.Forall2
import Mathlib.Data.List.Perm.Basic
import Mathlib.Data.List.ProdSigma
import IndexSync.Proofs.Counting
import IndexSync.Proofs.Store.Reading
import IndexSync.Proofs.Walk.Nodes

/-!
# Walks come to an end

A walk through any store ends within its budget, whatever cycles tree and store have.

- `Value.Holds` — what is taken out of a value is no broader and refers to nothing new.
- `Arena.Shallow` — how many nodes a walk passes before it has to meet an object.
- `Walk.Affords` — the invariant: the steps left pay for every place on the stack, and
  for whatever each pair not met yet may put there.
- `Walk.run_ne_exhausted`, `Walk.le_budget_of_roams` — the budget pays for the start,
  whatever order the stack is taken in.
-/

namespace IndexSync

/-! ## Elements of values -/

namespace Value

/-- `v` is at least as broad as `u`, and refers to whatever `u` refers to. -/
structure Holds (v u : Value) : Prop where
  breadth : u.breadth ≤ v.breadth
  refs : u.refs ⊆ v.refs

theorem breadth_le_breadthAll {items : List Value} {u : Value} (h : u ∈ items) :
    u.breadth ≤ breadth.breadthAll items ∧ u.refs ⊆ refs.refsAll items := by
  induction items with
  | nil => cases h
  | cons v rest ih =>
      rw [breadth.breadthAll, refs.refsAll]
      rcases List.mem_cons.mp h with rfl | h
      · exact ⟨Nat.le_max_left _ _, List.subset_append_left _ _⟩
      · obtain ⟨hbreadth, hrefs⟩ := ih h
        exact ⟨Nat.le_trans hbreadth (Nat.le_max_right _ _),
          List.subset_append_of_subset_right _ hrefs⟩

theorem breadth_le_breadthEntries {entries : List (Value × Value)} {k v : Value}
    (h : (k, v) ∈ entries) :
    (k.breadth ≤ breadth.breadthEntries entries ∧ v.breadth ≤ breadth.breadthEntries entries) ∧
      k.refs ⊆ refs.refsEntries entries ∧ v.refs ⊆ refs.refsEntries entries := by
  induction entries with
  | nil => cases h
  | cons e rest ih =>
      obtain ⟨k', v'⟩ := e
      rw [breadth.breadthEntries, refs.refsEntries]
      rcases List.mem_cons.mp h with h | h
      · cases h
        refine ⟨⟨?_, ?_⟩, fun o ho => ?_, fun o ho => ?_⟩
        · omega
        · omega
        · exact List.mem_append_left _ (List.mem_append_left _ ho)
        · exact List.mem_append_left _ (List.mem_append_right _ ho)
      · obtain ⟨⟨hk, hv⟩, hks, hvs⟩ := ih h
        refine ⟨⟨by omega, by omega⟩, ?_, ?_⟩
        · exact List.subset_append_of_subset_right _ hks
        · exact List.subset_append_of_subset_right _ hvs

/-- A map holds its keys and its values. -/
theorem holds_of_mem_entries {entries : List (Value × Value)} {k v : Value}
    (h : (k, v) ∈ entries) : (map entries).Holds k ∧ (map entries).Holds v := by
  obtain ⟨⟨hk, hv⟩, hks, hvs⟩ := breadth_le_breadthEntries h
  exact ⟨⟨Nat.le_trans hk (Nat.le_max_right _ _), hks⟩,
    ⟨Nat.le_trans hv (Nat.le_max_right _ _), hvs⟩⟩

/-- A value holds whatever is taken out of it, and is as broad as there are elements. -/
theorem holds_of_elements? {e : Extractor} {v : Value} {items : List Value}
    (h : e.elements? v = some items) :
    items.length ≤ v.breadth ∧ ∀ u ∈ items, v.Holds u := by
  -- lists, sets and arrays alike
  have hall : ∀ {vs : List Value}, vs.length ≤ max vs.length (breadth.breadthAll vs) ∧
      ∀ u ∈ vs, u.breadth ≤ max vs.length (breadth.breadthAll vs) ∧
        u.refs ⊆ refs.refsAll vs := by
    intro vs
    refine ⟨Nat.le_max_left _ _, fun u hu => ?_⟩
    obtain ⟨hbreadth, hrefs⟩ := breadth_le_breadthAll hu
    exact ⟨Nat.le_trans hbreadth (Nat.le_max_right _ _), hrefs⟩
  cases v with
  | null =>
      have hnil : items = [] := by cases e <;> exact (Option.some.inj h).symm
      subst hnil
      exact ⟨Nat.zero_le _, nofun⟩
  | list vs =>
      cases e <;> cases h
      exact ⟨hall.1, fun u hu => ⟨(hall.2 u hu).1, (hall.2 u hu).2⟩⟩
  | set vs =>
      cases e <;> cases h
      exact ⟨hall.1, fun u hu => ⟨(hall.2 u hu).1, (hall.2 u hu).2⟩⟩
  | array vs =>
      cases e <;> cases h
      exact ⟨hall.1, fun u hu => ⟨(hall.2 u hu).1, (hall.2 u hu).2⟩⟩
  | map entries =>
      have hlength : ∀ f : Value × Value → Value,
          (entries.map f).length ≤ (map entries).breadth := by
        intro f
        rw [List.length_map]
        exact Nat.le_max_left _ _
      cases e <;> cases h
      · refine ⟨hlength _, fun u hu => ?_⟩
        obtain ⟨⟨k, v⟩, hmem, rfl⟩ := List.mem_map.mp hu
        exact (holds_of_mem_entries hmem).2
      · refine ⟨hlength _, fun u hu => ?_⟩
        obtain ⟨⟨k, v⟩, hmem, rfl⟩ := List.mem_map.mp hu
        exact (holds_of_mem_entries hmem).1
  | optional inner =>
      cases e <;> cases h
      cases inner with
      | none => exact ⟨Nat.zero_le _, nofun⟩
      | some v =>
          refine ⟨Nat.le_max_left _ _, fun u hu => ?_⟩
          cases List.mem_singleton.mp hu
          exact ⟨Nat.le_max_right _ _, List.Subset.refl _⟩
  | bool | integer | text | bytes | ref => cases e <;> cases h

end Value

/-! ## Shallow nodes -/

/-- From the node, a walk passes fewer than `n` nodes before it has to meet an object. -/
inductive Arena.Shallow (a : Arena) : Nat → NodeId → Prop where
  | intro {n : Nat} {id : NodeId} :
      (∀ node, a.get? id = some node → ∀ next ∈ node.onward, Shallow a n next) →
      Shallow a (n + 1) id

theorem Arena.Shallow.mono {a : Arena} {m n : Nat} {id : NodeId} (h : a.Shallow m id)
    (hle : m ≤ n) : a.Shallow n id := by
  induction h generalizing n with
  | @intro m id _ ih =>
      obtain ⟨k, rfl⟩ := Nat.exists_eq_add_of_le hle
      rw [Nat.add_right_comm]
      exact .intro fun node hnode next hnext => ih node hnode next hnext (Nat.le_add_right m k)

namespace Walk

variable {schema : Schema} {w : Walk schema}

/-! ## What may come onto the stack -/

/-- The objects that a walk from an object can come to. -/
def objectsFrom (w : Walk schema) (object : ObjectId) : List ObjectId :=
  object :: (storeValues w.store).flatMap Value.refs

/-- What a walk may stand on. -/
def Bounds (w : Walk schema) (object : ObjectId) : Footing → Prop
  | .object o => o ∈ w.objectsFrom object
  | .value v => v.breadth ≤ storeBreadth w.store ∧ v.refs ⊆ w.objectsFrom object

theorem Bounds.holds {object : ObjectId} {v u : Value} (h : w.Bounds object (.value v))
    (hu : v.Holds u) : w.Bounds object (.value u) :=
  ⟨Nat.le_trans hu.breadth h.1, List.Subset.trans hu.refs h.2⟩

theorem Bounds.mem_objectsFrom {object o : ObjectId} {f : Footing} (h : w.Bounds object f)
    (ho : f.object? = .ok (some o)) : o ∈ w.objectsFrom object := by
  cases f with
  | object o' =>
      cases ho
      exact h
  | value v =>
      cases v <;> cases ho
      exact h.2 List.mem_cons_self

/-- What is read is null or held by the store. -/
theorem bounds_of_read {object o : ObjectId} {name : String} {v : Value}
    (h : w.store.read o name = .ok v) : w.Bounds object (.value v) := by
  obtain ⟨stored, hstored, -, rfl⟩ := ObjectStore.read_eq_ok.mp h
  have hget : w.store.objects[o]? = some stored := hstored
  rw [Std.ExtTreeMap.getD_eq_getD_getElem?]
  cases hvalue : stored.properties[name]? with
  | none => exact ⟨Nat.zero_le _, List.nil_subset _⟩
  | some v =>
      have hmem : v ∈ storeValues w.store :=
        List.mem_flatMap.mpr ⟨stored, SortedMap.mem_contents hget, SortedMap.mem_contents hvalue⟩
      refine ⟨List.le_foldl_max (List.mem_map.mpr ⟨v, hmem, rfl⟩), fun o' ho' => ?_⟩
      exact List.mem_cons_of_mem _ (List.mem_flatMap.mpr ⟨v, hmem, ho'⟩)

/-! ## What one place puts onto the stack -/

theorem object?_of_toValue {f : Footing} {o : ObjectId} (h : f.toValue = .ref o) :
    f.object? = .ok (some o) := by
  cases f with
  | object => cases h; rfl
  | value v => cases v <;> cases h; rfl

theorem fan_pos (w : Walk schema) : 1 < w.fan := by
  unfold fan
  omega

theorem length_le_width {a : Arena} {id : NodeId} {node : Node} (h : a.get? id = some node) :
    node.children.length ≤ width a := by
  have hmem : node ∈ a.nodes.toList :=
    Array.mem_toList_iff.mpr (Array.mem_of_getElem? h)
  exact List.le_foldl_max (List.mem_map.mpr ⟨node, hmem, rfl⟩)

/-- What a place leads to is bounded; it stands at nodes that come next at once, or there
is an object that had to be met. -/
structure Puts (w : Walk schema) (object : ObjectId) (place : Place) (node : Node)
    (next : List Place) : Prop where
  bounds : ∀ q ∈ next, w.Bounds object q.2
  length : next.length < w.fan
  onward : (∀ q ∈ next, q.1 ∈ node.onward) ∨ next.length ≤ 1 ∧
    ∃ o ∈ w.objectsFrom object, w.guarded? place = some o

theorem Puts.nil {object : ObjectId} {place : Place} {node : Node} :
    w.Puts object place node [] :=
  ⟨nofun, Nat.lt_of_succ_lt w.fan_pos, .inl nofun⟩

theorem Puts.one {object : ObjectId} {place : Place} {node : Node} {next : NodeId} {f : Footing}
    (hf : w.Bounds object f) (hnext : next ∈ node.onward) :
    w.Puts object place node [(next, f)] := by
  refine ⟨?_, w.fan_pos, .inl ?_⟩
  · intro q hq
    cases List.mem_singleton.mp hq
    exact hf
  · intro q hq
    cases List.mem_singleton.mp hq
    exact hnext

/-- Behind a guard, a walk goes on from an object that had to be met. -/
theorem Puts.met {object o : ObjectId} {place : Place} {node : Node} {next : NodeId}
    (ho : o ∈ w.objectsFrom object) (hguard : w.guarded? place = some o) :
    w.Puts object place node [(next, .object o)] := by
  refine ⟨?_, w.fan_pos, .inr ⟨Nat.le_refl _, o, ho, hguard⟩⟩
  intro q hq
  cases List.mem_singleton.mp hq
  exact ho

/-- The elements of a container are no broader than it, and no more than the store's
broadest container has. -/
theorem Puts.elements {object : ObjectId} {place : Place} {e : Extractor} {nested : NodeId}
    {v : Value} {items : List Value} (hv : w.Bounds object (.value v))
    (hitems : e.elements? v = some items) :
    w.Puts object place (.extract e nested)
      ((items.filter (!·.isNull)).reverse.map fun item => (nested, .value item)) := by
  obtain ⟨hlength, hholds⟩ := Value.holds_of_elements? hitems
  refine ⟨fun q hq => ?_, ?_, .inl fun q hq => ?_⟩
  · obtain ⟨u, hu, rfl⟩ := List.mem_map.mp hq
    exact hv.holds (hholds u (List.mem_filter.mp (List.mem_reverse.mp hu)).1)
  · have hfilter := List.length_filter_le (fun u : Value => !u.isNull) items
    have hbreadth : v.breadth ≤ storeBreadth w.store := hv.1
    rw [List.length_map, List.length_reverse]
    unfold fan
    omega
  · obtain ⟨u, -, rfl⟩ := List.mem_map.mp hq
    exact List.mem_singleton_self _

theorem Puts.children {object : ObjectId} {id : NodeId} {f : Footing} {children : List NodeId}
    (hnode : w.arena.get? id = some (.union children)) (hf : w.Bounds object f) :
    w.Puts object (id, f) (.union children) (children.map fun child => (child, f)) := by
  refine ⟨fun q hq => ?_, ?_, .inl fun q hq => ?_⟩
  · obtain ⟨child, -, rfl⟩ := List.mem_map.mp hq
    exact hf
  · have hwidth : children.length ≤ width w.arena := length_le_width hnode
    rw [List.length_map]
    unfold fan
    omega
  · obtain ⟨child, hchild, rfl⟩ := List.mem_map.mp hq
    exact hchild

theorem puts_of_follow {object : ObjectId} {id : NodeId} {f : Footing} {followed : Followed}
    {node : Node} (hnode : w.arena.get? id = some node) (hf : w.Bounds object f)
    (h : w.follow (id, f) = .ok followed) : w.Puts object (id, f) node followed.next := by
  simp only [follow, hnode] at h
  cases node with
  | type static dispatch =>
      rcases onObject_eq_ok.mp h with ⟨-, rfl⟩ | ⟨o, ho, h⟩
      · exact .nil
      · have hguard : w.guarded? (id, f) = some o := by
          simp only [guarded?, hnode, object?_of_toValue ho]
        have hmem : o ∈ w.objectsFrom object := hf.mem_objectsFrom (object?_of_toValue ho)
        obtain ⟨type, -, h⟩ := Except.bind_eq_ok.mp h
        split at h
        · cases h
          exact .met hmem hguard
        · split at h
          · cases h
            exact .nil
          · cases h
  | cast target nested =>
      rcases onObject_eq_ok.mp h with ⟨-, rfl⟩ | ⟨o, ho, h⟩
      · exact .nil
      · have hguard : w.guarded? (id, f) = some o := by
          simp only [guarded?, hnode, object?_of_toValue ho]
        have hmem : o ∈ w.objectsFrom object := hf.mem_objectsFrom (object?_of_toValue ho)
        obtain ⟨o?, ho?, h⟩ := Except.bind_eq_ok.mp h
        obtain ⟨type, -, rfl⟩ := narrowed?_eq_ok.mp (reading_eq_ok.mp ho?)
        cases hfits : schema.fits type target with
        | false =>
            simp only [hfits, Bool.false_eq_true, if_false] at h
            cases h
            exact .nil
        | true =>
            simp only [hfits, if_true] at h
            cases h
            exact .met hmem hguard
  | property name nested =>
      rcases onObject_eq_ok.mp h with ⟨-, rfl⟩ | ⟨o, -, h⟩
      · exact .nil
      · obtain ⟨v, hv, h⟩ := Except.bind_eq_ok.mp h
        cases h
        cases v.isNull with
        | true => exact .nil
        | false => exact .one (bounds_of_read (reading_eq_ok.mp hv)) (List.mem_singleton_self _)
  | extract e nested =>
      cases f with
      | object => cases h
      | value v =>
          obtain ⟨items, hitems, h⟩ := Except.bind_eq_ok.mp h
          cases h
          exact .elements hf (elements?_of_elements (reading_eq_ok.mp hitems))
  | union children =>
      cases h
      exact .children hnode hf
  | ifDirty relevant nested =>
      cases h
      cases w.blocks relevant with
      | true => exact .nil
      | false => exact .one hf (List.mem_singleton_self _)
  | reindex =>
      rcases onObject_eq_ok.mp h with ⟨-, rfl⟩ | ⟨o, -, h⟩
      · exact .nil
      · obtain ⟨r, -, h⟩ := Except.bind_eq_ok.mp h
        cases h
        exact .nil
  | pending => cases h

/-! ## Paying for every step -/

/-- How many pairs of a node and an object have not been met. -/
def unmet (w : Walk schema) (object : ObjectId) (f : Findings) : Nat :=
  (List.range w.arena.size ×ˢ w.objectsFrom object).countP
    fun p => !f.hasMet p.1 p.2

/-- The steps left pay for every place on the stack, by how deep its node is, and for
whatever each pair not met yet may put there. -/
structure Affords (w : Walk schema) (object : ObjectId) (depth steps : Nat) (s : State) :
    Prop where
  bounds : ∀ p ∈ s.stack, w.Bounds object p.2
  pays : ∃ depths, List.Forall₂ (fun p d => w.arena.Shallow d p.1) s.stack depths ∧
    (depths.map (w.fan ^ ·)).sum + w.unmet object s.findings * w.fan ^ (depth + 1) ≤ steps

theorem forall₂_replicate {places : List Place} {d : Nat}
    (h : ∀ q ∈ places, w.arena.Shallow d q.1) :
    List.Forall₂ (fun q d => w.arena.Shallow d q.1) places (List.replicate places.length d) := by
  induction places with
  | nil => exact .nil
  | cons q places ih =>
      exact .cons (h q List.mem_cons_self) (ih fun p hp => h p (List.mem_cons_of_mem _ hp))

theorem Advances.unmet_le {place : Place} {followed : Followed} {s s' : State}
    (h : w.Advances place followed s s') (object : ObjectId) :
    w.unmet object s'.findings ≤ w.unmet object s.findings := by
  refine List.countP_mono_left fun p _ hp => ?_
  rw [Bool.not_eq_true'] at hp ⊢
  rw [Bool.eq_false_iff] at hp ⊢
  exact fun hmet => hp ((h.met p.1 p.2).mpr (.inl hmet))

theorem Advances.unmet_lt {place : Place} {followed : Followed} {s s' : State}
    (h : w.Advances place followed s s') {object o : ObjectId} {node : Node}
    (hnode : w.arena.get? place.1 = some node) (ho : o ∈ w.objectsFrom object)
    (hguard : w.guarded? place = some o) :
    w.unmet object s'.findings < w.unmet object s.findings := by
  have hmem : (place.1, o) ∈ List.range w.arena.size ×ˢ w.objectsFrom object :=
    List.mem_product.mpr ⟨List.mem_range.mpr (Arena.lt_size_of_get? hnode), ho⟩
  refine List.countP_lt_countP (fun p _ hp => ?_) hmem ?_ ?_
  · rw [Bool.not_eq_true'] at hp ⊢
    rw [Bool.eq_false_iff] at hp ⊢
    exact fun hmet => hp ((h.met p.1 p.2).mpr (.inl hmet))
  · rw [Bool.not_eq_false']
    exact (h.met place.1 o).mpr (.inr ⟨rfl, hguard⟩)
  · rw [h.fresh o hguard]
    rfl

/-- Passing a place over pays for it. -/
theorem Affords.pass {object : ObjectId} {depth steps : Nat} {place : Place} {rest : List Place}
    {s s' : State} (h : w.Affords object depth (steps + 1) s) (hs : s.stack = place :: rest)
    (hpass : w.Passes place { s with stack := rest } s') : w.Affords object depth steps s' := by
  obtain ⟨depths, hdepths, hpays⟩ := h.pays
  rw [hs] at hdepths
  obtain ⟨d, ds, -, hds, rfl⟩ := List.forall₂_cons_left_iff.mp hdepths
  rw [List.map_cons, List.sum_cons] at hpays
  have hpositive : 0 < w.fan ^ d := Nat.pow_pos (Nat.lt_of_succ_lt w.fan_pos)
  refine ⟨?_, ds, ?_, ?_⟩
  · rw [hpass.stack]
    exact fun p hp => h.bounds p (hs ▸ List.mem_cons_of_mem _ hp)
  · rw [hpass.stack]
    exact hds
  · rw [hpass.findings]
    show _ + w.unmet object s.findings * _ ≤ _
    omega

/-- Following a place pays for it if the new places cost less; the old ones still cost the
same. -/
theorem Affords.advance {object : ObjectId} {depth steps d k : Nat} {place : Place}
    {rest : List Place} {ds : List Nat} {s s' : State} {followed : Followed} {node : Node}
    (h : w.Affords object depth (steps + 1) s) (hs : s.stack = place :: rest)
    (hadv : w.Advances place followed { s with stack := rest } s')
    (hputs : w.Puts object place node followed.next)
    (hds : List.Forall₂ (fun p d => w.arena.Shallow d p.1) rest ds)
    (hpays : w.fan ^ d + (ds.map (w.fan ^ ·)).sum +
      w.unmet object s.findings * w.fan ^ (depth + 1) ≤ steps + 1)
    (hnext : ∀ q ∈ followed.next, w.arena.Shallow k q.1)
    (hless : followed.next.length * w.fan ^ k + w.unmet object s'.findings * w.fan ^ (depth + 1) <
      w.fan ^ d + w.unmet object s.findings * w.fan ^ (depth + 1)) :
    w.Affords object depth steps s' := by
  refine ⟨?_, List.replicate followed.next.length k ++ ds, ?_, ?_⟩
  · rw [hadv.stack]
    intro p hp
    rcases List.mem_append.mp hp with hp | hp
    · exact hputs.bounds p hp
    · exact h.bounds p (hs ▸ List.mem_cons_of_mem _ hp)
  · rw [hadv.stack]
    exact List.rel_append (forall₂_replicate hnext) hds
  · rw [List.map_append, List.sum_append, List.map_replicate, List.sum_replicate_nat]
    omega

/-- What is on the stack has to be paid for. -/
theorem Affords.steps_pos {object : ObjectId} {depth steps : Nat} {s : State}
    (h : w.Affords object depth steps s) (hs : s.stack ≠ []) : 0 < steps := by
  obtain ⟨depths, hdepths, hpays⟩ := h.pays
  obtain ⟨place, rest, hs⟩ := List.exists_cons_of_ne_nil hs
  rw [hs] at hdepths
  obtain ⟨d, ds, -, -, rfl⟩ := List.forall₂_cons_left_iff.mp hdepths
  have hpositive : 0 < w.fan ^ d := Nat.pow_pos (Nat.lt_of_succ_lt w.fan_pos)
  rw [List.map_cons, List.sum_cons] at hpays
  omega

/-- What is paid does not depend on the order of the stack. -/
theorem Affords.perm {object : ObjectId} {depth steps : Nat} {s : State} {stack : List Place}
    (h : w.Affords object depth steps s) (hperm : s.stack.Perm stack) :
    w.Affords object depth steps { s with stack } := by
  obtain ⟨depths, hdepths, hpays⟩ := h.pays
  obtain ⟨depths', hdepths', hsame⟩ := List.perm_comp_forall₂ hperm.symm hdepths
  refine ⟨fun p hp => h.bounds p (hperm.mem_iff.mpr hp), depths', hdepths', ?_⟩
  rw [(hsame.map _).sum_nat]
  exact hpays

section

variable {depth : Nat} (hshallow : ∀ id, w.arena.Shallow depth id)
include hshallow

theorem Affords.step {object : ObjectId} {steps : Nat} {place : Place} {rest : List Place}
    {s s' : State} (h : w.Affords object depth (steps + 1) s) (hs : s.stack = place :: rest)
    (hstep : w.step place { s with stack := rest } = .ok s') :
    w.Affords object depth steps s' := by
  rcases step_cases hstep with hpass | ⟨followed, hadv⟩
  · exact h.pass hs hpass
  have hfan := w.fan_pos
  obtain ⟨depths, hdepths, hpays⟩ := h.pays
  rw [hs] at hdepths
  obtain ⟨d, ds, hd, hds, rfl⟩ := List.forall₂_cons_left_iff.mp hdepths
  rw [List.map_cons, List.sum_cons] at hpays
  have hplace : w.Bounds object place.2 := h.bounds place (hs ▸ List.mem_cons_self)
  obtain ⟨id, f⟩ := place
  cases hnode : w.arena.get? id with
  | none =>
      have hfollow := hadv.follow
      simp [follow, hnode] at hfollow
  | some node =>
      have hputs := puts_of_follow hnode hplace hadv.follow
      rcases hputs.onward with hnext | ⟨hone, o, ho, hguard⟩
      · -- the place itself pays: fewer than `fan` places, each less deep
        cases hd with
        | @intro k _ hd =>
            have hunmet : w.unmet object s'.findings ≤ w.unmet object s.findings :=
              hadv.unmet_le object
            have hunmet' := Nat.mul_le_mul_right (w.fan ^ (depth + 1)) hunmet
            have hless : followed.next.length * w.fan ^ k < w.fan ^ (k + 1) := by
              rw [Nat.pow_succ, Nat.mul_comm]
              exact Nat.mul_lt_mul_of_pos_left hputs.length
                (Nat.pow_pos (Nat.lt_of_succ_lt hfan))
            have hdeep : ∀ q ∈ followed.next, w.arena.Shallow k q.1 :=
              fun q hq => hd node hnode q.1 (hnext q hq)
            exact h.advance hs hadv hputs hds hpays hdeep (by omega)
      · -- the pair pays that has been met only now
        have hunmet : w.unmet object s'.findings < w.unmet object s.findings :=
          hadv.unmet_lt hnode ho hguard
        have hunmet' := Nat.mul_le_mul_right (w.fan ^ (depth + 1)) hunmet
        rw [Nat.succ_mul] at hunmet'
        have hone' := Nat.mul_le_mul_right (w.fan ^ depth) hone
        have hless : w.fan ^ depth < w.fan ^ (depth + 1) :=
          Nat.pow_lt_pow_right hfan (Nat.lt_succ_self depth)
        have hpositive : 0 < w.fan ^ d := Nat.pow_pos (Nat.lt_of_succ_lt hfan)
        have hdeep : ∀ q ∈ followed.next, w.arena.Shallow depth q.1 := fun q _ => hshallow q.1
        exact h.advance hs hadv hputs hds hpays hdeep (by omega)

/-- Steps that pay for everything are not used up. -/
theorem Affords.runFor_ne_exhausted {object : ObjectId} {steps : Nat} {s : State}
    (h : w.Affords object depth steps s) : (w.runFor steps s).1 ≠ .exhausted := by
  induction steps generalizing s with
  | zero =>
      cases hs : s.stack with
      | nil =>
          rw [runFor, hs]
          simp
      | cons place rest => exact absurd (h.steps_pos (by simp [hs])) (Nat.lt_irrefl 0)
  | succ steps ih =>
      rw [runFor]
      cases hs : s.stack with
      | nil => simp
      | cons place rest =>
          dsimp only
          cases hstep : w.step place { s with stack := rest } with
          | error e => simp
          | ok s' => exact ih (h.step hshallow hs hstep)

/-- Nor are they in any other order. -/
theorem Affords.le_of_roams {object : ObjectId} {n steps : Nat} {s s' : State}
    (h : w.Affords object depth steps s) (hroams : w.Roams n s s') : n ≤ steps := by
  induction hroams generalizing steps with
  | refl => exact Nat.zero_le _
  | @head n s mid s' place rest hperm hstep _ ih =>
      have hstack : s.stack ≠ [] := by
        intro hnil
        rw [hnil] at hperm
        exact absurd hperm.symm.eq_nil (List.cons_ne_nil _ _)
      cases steps with
      | zero => exact absurd (h.steps_pos hstack) (Nat.lt_irrefl 0)
      | succ steps =>
          have hmid : w.Affords object depth steps mid := (h.perm hperm).step hshallow rfl hstep
          exact Nat.succ_le_succ (ih hmid)

end

section

variable (hshallow : ∀ id, w.arena.Shallow (2 * w.arena.size + 1) id) {nodes : List NodeId}
  {starts : Nat} (hnodes : nodes.length ≤ starts)
include hshallow hnodes

/-- The budget pays for the start, and for every pair that may be met. -/
theorem affords_start {steps : Nat} (hsteps : w.budget starts ≤ steps) (object : ObjectId) :
    w.Affords object (2 * w.arena.size + 1) steps (start nodes object) := by
  have hstack : (start nodes object).stack.length ≤ starts := by
    rw [start, List.length_map, List.length_reverse]
    exact hnodes
  have hunmet : w.unmet object (start nodes object).findings ≤
      w.arena.size * (storeRefs w.store + 1) := by
    refine Nat.le_trans List.countP_le_length (Nat.le_of_eq ?_)
    rw [List.length_product, List.length_range, objectsFrom, List.length_cons]
    rfl
  have hpow : w.fan ^ (2 * w.arena.size + 1) ≤ w.fan ^ (2 * w.arena.size + 1 + 1) :=
    Nat.pow_le_pow_right (Nat.lt_of_succ_lt w.fan_pos) (Nat.le_succ _)
  have hbudget : w.budget starts =
      w.arena.size * (storeRefs w.store + 1) * w.fan ^ (2 * w.arena.size + 1 + 1) +
        starts * w.fan ^ (2 * w.arena.size + 1 + 1) := by
    rw [← Nat.add_mul]
    rfl
  refine ⟨?_, _, forall₂_replicate fun q _ => hshallow q.1, ?_⟩
  · intro p hp
    obtain ⟨node, -, rfl⟩ := mem_start.mp hp
    exact List.mem_cons_self
  · have hstack' := Nat.mul_le_mul hstack hpow
    have hunmet' := Nat.mul_le_mul_right (w.fan ^ (2 * w.arena.size + 1 + 1)) hunmet
    rw [List.map_replicate, List.sum_replicate_nat]
    omega

/-- A walk from so many nodes ends within its budget. -/
theorem runFor_budget_ne_exhausted (object : ObjectId) :
    (w.runFor (usualSteps + w.budget starts) (start nodes object)).1 ≠ .exhausted :=
  (affords_start hshallow hnodes (Nat.le_add_left _ _) object).runFor_ne_exhausted hshallow

end

/-- So does a walk that takes the places off its stack in any order. -/
theorem le_budget_of_roams (hshallow : ∀ id, w.arena.Shallow (2 * w.arena.size + 1) id)
    {nodes : List NodeId} {object : ObjectId} {n : Nat} {s : State}
    (h : w.Roams n (start nodes object) s) : n ≤ w.budget nodes.length :=
  (affords_start hshallow (Nat.le_refl _) (Nat.le_refl _) object).le_of_roams hshallow h

theorem run_ne_exhausted (hshallow : ∀ id, w.arena.Shallow (2 * w.arena.size + 1) id)
    (nodes : List NodeId) (object : ObjectId) : (w.run nodes object).1 ≠ .exhausted := by
  rw [run_eq_runFor]
  exact runFor_budget_ne_exhausted hshallow (Nat.le_refl _) object

end Walk

end IndexSync
