import IndexSync.Proofs.Leads
import IndexSync.Proofs.Walk.Reach

/-!
# What single nodes do

One lemma for each kind of node says where a place leads to, in the terms of moves.

- `leads_union`, `leads_ifDirty`, `leads_property`, `leads_extract`, `leads_cast`,
  `leads_type` — the places that follow.
- `finds_reindex`, `reindex_of_finds` — entities are found at `reindex` nodes only.
- `Move.Safe`, `follow_of_safe`, `safe_of_follow` — a node makes its move at a value
  exactly where the move cannot go wrong.
-/

namespace IndexSync

/-- The value stood on. -/
def Footing.toValue : Footing → Value
  | object id => .ref id
  | value v => v

variable {schema : Schema}

/-- A move does not go wrong at a value. -/
def Move.Safe (s : ObjectStore schema) : Move → Value → Prop
  | .read property, v => ∃ o w, v = .ref o ∧ s.read o property = .ok w
  | .extract e, v => ∃ items, e.elements? v = some items
  | .cast _, v => ∃ o type, v = .ref o ∧ s.runtimeType o = .ok type
  | .land type, v => ∃ o, v = .ref o ∧ s.IsA o type

namespace Walk

variable {w : Walk schema} {id : NodeId} {f : Footing}

/-- A filter lets the walk pass. -/
def Admits (w : Walk schema) (relevance : OrdinalSet) : Prop :=
  w.blocks relevance = false

theorem Admits.mono {r r' : OrdinalSet} (h : w.Admits r) (hsub : r.subset r' = true) :
    w.Admits r' := by
  unfold Admits blocks at h ⊢
  cases hd : w.dirty with
  | none => rfl
  | some dirty =>
      rw [hd] at h
      simp only [Bool.not_eq_false', OrdinalSet.intersects_iff] at h ⊢
      obtain ⟨n, hn, hdirty⟩ := h
      exact ⟨n, OrdinalSet.subset_iff.mp hsub n hn, hdirty⟩

theorem reading_eq_ok {α : Type} {x : Except DataError α} {a : α} :
    reading x = .ok a ↔ x = .ok a :=
  Except.mapError_eq_ok

theorem onObject_eq_ok {next : ObjectId → Except SyncError Followed} {followed : Followed} :
    onObject f next = .ok followed ↔
      f.toValue = .null ∧ followed = .nowhere ∨
        ∃ o, f.toValue = .ref o ∧ next o = .ok followed := by
  unfold onObject
  rw [Except.bind_eq_ok]
  simp only [reading_eq_ok]
  cases f with
  | object o => simp [Footing.object?, Footing.toValue]
  | value v =>
      cases v <;> simp [Footing.object?, Footing.toValue, Except.pure_eq_ok,
        eq_comm (a := followed)]

/-! ## Where places lead -/

theorem elements?_of_elements {e : Extractor} {v : Value} {items : List Value}
    (h : e.elements v = .ok items) : e.elements? v = some items := by
  unfold Extractor.elements at h
  split at h
  · cases h
    assumption
  · cases h

theorem leads_union {children : List NodeId} (h : w.arena.get? id = some (.union children))
    {q : Place} : w.Leads (id, f) q ↔ ∃ child ∈ children, q = (child, f) := by
  unfold Leads follow
  simp [h, Followed.onward, eq_comm]

theorem leads_ifDirty {relevance : OrdinalSet} {nested : NodeId}
    (h : w.arena.get? id = some (.ifDirty relevance nested)) {q : Place} :
    w.Leads (id, f) q ↔ w.Admits relevance ∧ q = (nested, f) := by
  unfold Leads follow Admits
  simp only [h, Except.ok.injEq, exists_eq_left', Followed.onward]
  cases w.blocks relevance <;> simp

theorem leads_property {name : String} {nested : NodeId}
    (h : w.arena.get? id = some (.property name nested)) {q : Place} :
    w.Leads (id, f) q ↔
      ∃ u, (Move.read name).Leads w.store f.toValue u ∧ q = (nested, .value u) := by
  unfold Leads follow
  simp only [h, onObject_eq_ok, Except.bind_eq_ok, reading_eq_ok, Except.pure_eq_ok, Move.Leads]
  constructor
  · rintro ⟨_, ⟨-, rfl⟩ | ⟨o, ho, v, hv, rfl⟩, hq⟩
    · cases hq
    · cases hnull : v.isNull with
      | true => simp [Followed.onward, hnull] at hq
      | false =>
          simp only [Followed.onward, hnull, Bool.false_eq_true, if_false,
            List.mem_singleton] at hq
          exact ⟨v, ⟨o, ho, hv, hnull⟩, hq⟩
  · rintro ⟨u, ⟨o, ho, hu, hnull⟩, rfl⟩
    exact ⟨_, .inr ⟨o, ho, u, hu, rfl⟩, by simp [Followed.onward, hnull]⟩

theorem leads_extract {e : Extractor} {nested : NodeId}
    (h : w.arena.get? id = some (.extract e nested)) {q : Place} :
    w.Leads (id, f) q ↔
      ∃ u, (Move.extract e).Leads w.store f.toValue u ∧ q = (nested, .value u) := by
  unfold Leads follow
  simp only [h]
  cases f with
  | object o => cases e <;> simp [Move.Leads, Footing.toValue, Extractor.elements?]
  | value v =>
      simp only [Except.bind_eq_ok, reading_eq_ok, Except.pure_eq_ok, Move.Leads, Footing.toValue]
      constructor
      · rintro ⟨_, ⟨items, hitems, rfl⟩, hq⟩
        simp only [Followed.onward, List.mem_map, List.mem_reverse, List.mem_filter,
          Bool.not_eq_true'] at hq
        obtain ⟨u, ⟨hu, hnull⟩, rfl⟩ := hq
        exact ⟨u, ⟨items, elements?_of_elements hitems, hu, hnull⟩, rfl⟩
      · rintro ⟨u, ⟨items, hitems, hu, hnull⟩, rfl⟩
        refine ⟨_, ⟨items, by simp [Extractor.elements, hitems], rfl⟩, ?_⟩
        simp [Followed.onward, hu, hnull]

theorem narrowed?_eq_ok {s : ObjectStore schema} {o : ObjectId} {target : TypeName}
    {o? : Option ObjectId} :
    s.narrowed? o target = .ok o? ↔
      ∃ type, s.runtimeType o = .ok type ∧
        o? = if schema.fits type target then some o else none := by
  unfold ObjectStore.narrowed?
  simp only [Except.bind_eq_ok, Except.pure_eq_ok, eq_comm (a := o?)]

theorem leads_cast {target : TypeName} {nested : NodeId}
    (h : w.arena.get? id = some (.cast target nested)) {q : Place} :
    w.Leads (id, f) q ↔
      ∃ o, f.toValue = .ref o ∧ w.store.IsA o target ∧ q = (nested, .object o) := by
  unfold Leads follow
  simp only [h, onObject_eq_ok, Except.bind_eq_ok, reading_eq_ok, narrowed?_eq_ok]
  constructor
  · rintro ⟨_, ⟨-, rfl⟩ | ⟨o, ho, _, ⟨type, htype, rfl⟩, hnext⟩, hq⟩
    · cases hq
    · cases hfits : schema.fits type target with
      | false =>
          simp only [hfits, Bool.false_eq_true, if_false, Except.pure_eq_ok] at hnext
          subst hnext
          cases hq
      | true =>
          simp only [hfits, if_true, Except.pure_eq_ok] at hnext
          subst hnext
          exact ⟨o, ho, ⟨type, htype, hfits⟩, List.mem_singleton.mp hq⟩
  · rintro ⟨o, ho, ⟨type, htype, hfits⟩, rfl⟩
    refine ⟨.onward [(nested, .object o)], .inr ⟨o, ho, _, ⟨type, htype, rfl⟩, ?_⟩,
      List.mem_singleton_self _⟩
    simp only [hfits, if_true]
    rfl

theorem leads_type {static : TypeName} {dispatch : SortedMap TypeName NodeId}
    (h : w.arena.get? id = some (.type static dispatch)) {q : Place} :
    w.Leads (id, f) q ↔ ∃ o type nested, f.toValue = .ref o ∧ w.store.runtimeType o = .ok type ∧
      dispatch[type]? = some nested ∧ q = (nested, .object o) := by
  unfold Leads follow
  simp only [h, onObject_eq_ok, Except.bind_eq_ok, reading_eq_ok]
  constructor
  · rintro ⟨_, ⟨-, rfl⟩ | ⟨o, ho, type, htype, hnext⟩, hq⟩
    · cases hq
    · split at hnext
      · rename_i nested hnested
        cases hnext
        exact ⟨o, type, nested, ho, htype, hnested, List.mem_singleton.mp hq⟩
      · split at hnext
        · cases hnext
          cases hq
        · cases hnext
  · rintro ⟨o, type, nested, ho, htype, hnested, rfl⟩
    refine ⟨.onward [(nested, .object o)], .inr ⟨o, ho, type, htype, ?_⟩,
      List.mem_singleton_self _⟩
    simp only [hnested]
    rfl

theorem not_leads_reindex (h : w.arena.get? id = some .reindex) {q : Place} :
    ¬ w.Leads (id, f) q := by
  unfold Leads follow
  simp only [h, onObject_eq_ok, Except.bind_eq_ok, Except.pure_eq_ok]
  rintro ⟨_, ⟨-, rfl⟩ | ⟨o, -, _, -, rfl⟩, hq⟩ <;> cases hq

/-! ## Entities found -/

theorem finds_reindex (h : w.arena.get? id = some .reindex) {r : EntityRef} :
    w.Finds (id, f) r ↔ ∃ o, f.toValue = .ref o ∧ w.store.reference o = .ok r := by
  unfold Finds follow
  simp only [h, onObject_eq_ok, Except.bind_eq_ok, reading_eq_ok, Except.pure_eq_ok]
  constructor
  · rintro ⟨_, ⟨-, rfl⟩ | ⟨o, ho, _, hr', rfl⟩, hr⟩
    · cases hr
    · cases hr
      exact ⟨o, ho, hr'⟩
  · rintro ⟨o, ho, hr⟩
    exact ⟨_, .inr ⟨o, ho, r, hr, rfl⟩, rfl⟩

/-- A mark that was followed is recorded. -/
theorem found_of_reindex (h : w.arena.get? id = some .reindex) {x : ObjectId}
    (hf : f.toValue = .ref x) {followed : Followed} (hfollow : w.follow (id, f) = .ok followed) :
    ∃ r, w.store.reference x = .ok r ∧ followed.found = some r := by
  simp only [follow, h, onObject_eq_ok, Except.bind_eq_ok, reading_eq_ok,
    Except.pure_eq_ok] at hfollow
  rcases hfollow with ⟨hnull, -⟩ | ⟨o, ho, r, hr, rfl⟩
  · cases hnull.symm.trans hf
  · cases ho.symm.trans hf
    exact ⟨r, hr, rfl⟩

theorem found_onObject {next : ObjectId → Except SyncError Followed} {followed : Followed}
    (h : onObject f next = .ok followed)
    (hnext : ∀ o, next o = .ok followed → followed.found = none) : followed.found = none := by
  rcases onObject_eq_ok.mp h with ⟨-, rfl⟩ | ⟨o, -, h⟩
  · rfl
  · exact hnext o h

/-- Entities are found at `reindex` nodes only. -/
theorem reindex_of_finds {r : EntityRef} (h : w.Finds (id, f) r) :
    w.arena.get? id = some .reindex := by
  obtain ⟨followed, hfollow, hfound⟩ := h
  cases hnode : w.arena.get? id with
  | none => simp [follow, hnode] at hfollow
  | some node =>
      suffices hnone : node ≠ .reindex → followed.found = none by
        by_cases heq : node = .reindex
        · rw [heq]
        · rw [hnone heq] at hfound
          cases hfound
      intro hne
      simp only [follow, hnode] at hfollow
      cases node with
      | type static dispatch =>
          refine found_onObject hfollow fun o h => ?_
          obtain ⟨type, -, h⟩ := Except.bind_eq_ok.mp h
          split at h
          · cases h
            rfl
          · split at h <;> cases h
            rfl
      | cast target nested =>
          refine found_onObject hfollow fun o h => ?_
          obtain ⟨o?, -, h⟩ := Except.bind_eq_ok.mp h
          cases o? <;> cases h <;> rfl
      | property name nested =>
          refine found_onObject hfollow fun o h => ?_
          obtain ⟨v, -, h⟩ := Except.bind_eq_ok.mp h
          cases h
          rfl
      | extract e nested =>
          cases f with
          | object o => cases hfollow
          | value v =>
              obtain ⟨items, -, h⟩ := Except.bind_eq_ok.mp hfollow
              cases h
              rfl
      | union | ifDirty =>
          cases hfollow
          rfl
      | reindex => exact absurd rfl hne
      | pending => cases hfollow

/-! ## Safe moves -/

/-- A node that makes a move; a landing has entries for types that fit only. -/
def MakesMove (w : Walk schema) (id : NodeId) : Move → Prop
  | .read name => ∃ nested, w.arena.get? id = some (.property name nested)
  | .extract e => ∃ nested, w.arena.get? id = some (.extract e nested)
  | .cast target => ∃ nested, w.arena.get? id = some (.cast target nested)
  | .land type => ∃ dispatch : SortedMap TypeName NodeId,
      w.arena.get? id = some (.type type dispatch) ∧
        ∀ c nested, dispatch[c]? = some nested → schema.fits c type = true

theorem MakesMove.ne_reindex {m : Move} (h : w.MakesMove id m) :
    w.arena.get? id ≠ some .reindex := by
  cases m with
  | read | extract | cast =>
      obtain ⟨_, h⟩ := h
      rw [h]
      nofun
  | land =>
      obtain ⟨_, h, -⟩ := h
      rw [h]
      nofun

theorem follow_of_safe {m : Move} (hm : w.MakesMove id m) (hsafe : m.Safe w.store f.toValue) :
    ∃ followed, w.follow (id, f) = .ok followed := by
  cases m with
  | read name =>
      obtain ⟨nested, h⟩ := hm
      obtain ⟨o, v, ho, hv⟩ := hsafe
      simp only [follow, h, onObject_eq_ok, Except.bind_eq_ok, reading_eq_ok, Except.pure_eq_ok]
      exact ⟨_, .inr ⟨o, ho, v, hv, rfl⟩⟩
  | extract e =>
      obtain ⟨nested, h⟩ := hm
      obtain ⟨items, hitems⟩ := hsafe
      cases f with
      | object o => cases e <;> cases hitems
      | value v =>
          simp only [follow, h, Except.bind_eq_ok, reading_eq_ok, Except.pure_eq_ok]
          exact ⟨_, items, by simp [Extractor.elements, show e.elements? v = _ from hitems], rfl⟩
  | cast target =>
      obtain ⟨nested, h⟩ := hm
      obtain ⟨o, type, ho, htype⟩ := hsafe
      simp only [follow, h, onObject_eq_ok, Except.bind_eq_ok, reading_eq_ok, narrowed?_eq_ok]
      cases hfits : schema.fits type target with
      | false => exact ⟨_, .inr ⟨o, ho, _, ⟨type, htype, rfl⟩, by rw [hfits]; rfl⟩⟩
      | true => exact ⟨_, .inr ⟨o, ho, _, ⟨type, htype, rfl⟩, by rw [hfits]; rfl⟩⟩
  | land static =>
      obtain ⟨dispatch, h, -⟩ := hm
      obtain ⟨o, ho, type, htype, hfits⟩ := hsafe
      simp only [follow, h, onObject_eq_ok, Except.bind_eq_ok, reading_eq_ok]
      cases hd : dispatch[type]? with
      | none => exact ⟨.nowhere, .inr ⟨o, ho, type, htype, by simp only [hd, hfits, if_true]; rfl⟩⟩
      | some nested => exact ⟨_, .inr ⟨o, ho, type, htype, by simp only [hd]; rfl⟩⟩

/-- A move that did not go wrong anywhere but on null was safe. -/
theorem safe_of_follow {m : Move} (hm : w.MakesMove id m) (hnull : f.toValue ≠ .null)
    {followed : Followed} (h : w.follow (id, f) = .ok followed) : m.Safe w.store f.toValue := by
  cases m with
  | read name =>
      obtain ⟨nested, hnode⟩ := hm
      simp only [follow, hnode, onObject_eq_ok, Except.bind_eq_ok, reading_eq_ok] at h
      obtain ⟨o, ho, v, hv, -⟩ := h.resolve_left fun h => hnull h.1
      exact ⟨o, v, ho, hv⟩
  | extract e =>
      obtain ⟨nested, hnode⟩ := hm
      simp only [follow, hnode] at h
      cases f with
      | object o => cases h
      | value v =>
          obtain ⟨items, hitems, -⟩ := Except.bind_eq_ok.mp h
          exact ⟨items, elements?_of_elements (reading_eq_ok.mp hitems)⟩
  | cast target =>
      obtain ⟨nested, hnode⟩ := hm
      simp only [follow, hnode, onObject_eq_ok, Except.bind_eq_ok, reading_eq_ok,
        narrowed?_eq_ok] at h
      obtain ⟨o, ho, _, ⟨type, htype, -⟩, -⟩ := h.resolve_left fun h => hnull h.1
      exact ⟨o, type, ho, htype⟩
  | land static =>
      obtain ⟨dispatch, hnode, hkeys⟩ := hm
      simp only [follow, hnode, onObject_eq_ok, Except.bind_eq_ok, reading_eq_ok] at h
      obtain ⟨o, ho, type, htype, hnext⟩ := h.resolve_left fun h => hnull h.1
      refine ⟨o, ho, type, htype, ?_⟩
      split at hnext
      · rename_i nested hnested
        exact hkeys type nested hnested
      · by_contra hfits
        rw [if_neg hfits] at hnext
        cases hnext

end Walk

/-- No move leads to null. -/
theorem ne_null_of_movesLead {s : ObjectStore schema} {ms : List Move} {o : ObjectId} {v : Value}
    (h : movesLead s ms (.ref o) v) : v ≠ .null := by
  rcases ms.eq_nil_or_concat with rfl | ⟨ms, m, rfl⟩
  · cases h
    nofun
  · rw [List.concat_eq_append, movesLead_append] at h
    obtain ⟨u, -, _, hmove, rfl⟩ := h
    cases m with
    | read =>
        obtain ⟨_, -, -, hnull⟩ := hmove
        rintro rfl
        cases hnull
    | extract =>
        obtain ⟨_, -, -, hnull⟩ := hmove
        rintro rfl
        cases hnull
    | cast | land =>
        obtain ⟨_, rfl, -, rfl⟩ := hmove
        nofun

end IndexSync
