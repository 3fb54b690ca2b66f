import IndexSync.ChangeTree.Walk
import IndexSync.Proofs.Success

/-!
# What a walk finds

A walk that comes to its end has found exactly what can be reached, although it
follows an object from a `type` or `cast` node only once, and whichever place it
takes off its stack next.

- `Walk.Reaches`, `Walk.Finds` — places that lead to one another in so many
  steps, and the entity found at a place.
- `Advances` — what one step does to a walk, once and for all.
- `Within`, `Covers` — the two invariants of a step; neither depends on the order
  of the stack.
- `Roams`, `Stops` — a walk that may take any place off its stack, and where it
  comes to an end; `roams_of_runFor`: walks as they are run are among these.
- `mem_entities_iff` — the entities of a finished walk are those found at places
  it can reach; every such place was followed without an error.
- `exists_of_failed` — a failed walk has reached the place where it failed.
-/

namespace IndexSync.Walk

variable {schema : Schema} {w : Walk schema}

/-- One place leads to another. -/
def Leads (w : Walk schema) (p q : Place) : Prop :=
  ∃ followed, w.follow p = .ok followed ∧ q ∈ followed.next

/-- A place can be reached from another in so many steps. -/
inductive Reaches (w : Walk schema) : Nat → Place → Place → Prop where
  | refl (p : Place) : Reaches w 0 p p
  | head {n : Nat} {p q r : Place} : w.Leads p q → Reaches w n q r → Reaches w (n + 1) p r

/-- An entity is found at a place. -/
def Finds (w : Walk schema) (p : Place) (r : EntityRef) : Prop :=
  ∃ followed, w.follow p = .ok followed ∧ followed.found = some r

theorem Reaches.trans {m n : Nat} {p q r : Place} (h : w.Reaches m p q) (h' : w.Reaches n q r) :
    w.Reaches (m + n) p r := by
  induction h with
  | refl => simpa using h'
  | @head k _ _ _ hlead _ ih =>
      rw [Nat.add_right_comm]
      exact .head hlead (ih h')

theorem Reaches.tail {n : Nat} {p q r : Place} (h : w.Reaches n p q) (h' : w.Leads q r) :
    w.Reaches (n + 1) p r :=
  h.trans (.head h' (.refl r))

/-! ## One step -/

/-- What following one place does to a walk. -/
structure Advances (w : Walk schema) (place : Place) (followed : Followed) (s s' : State) :
    Prop where
  follow : w.follow place = .ok followed
  stack : s'.stack = followed.next ++ s.stack
  entities : ∀ r, r ∈ s'.findings.entities ↔ r ∈ s.findings.entities ∨ followed.found = some r
  met : ∀ node o, s'.findings.hasMet node o = true ↔
    s.findings.hasMet node o = true ∨ node = place.1 ∧ w.guarded? place = some o
  fresh : ∀ o, w.guarded? place = some o → s.findings.hasMet place.1 o = false

/-- A place that was met before is passed over. -/
structure Passes (w : Walk schema) (place : Place) (s s' : State) : Prop where
  met : ∃ o, w.guarded? place = some o ∧ s.findings.hasMet place.1 o = true
  stack : s'.stack = s.stack
  findings : s'.findings = s.findings

theorem hasMet_insert {f : Findings} {node node' : NodeId} {o o' : ObjectId} :
    { f with met := f.met.insert { node, object := o } }.hasMet node' o' = true ↔
      f.hasMet node' o' = true ∨ node' = node ∧ o' = o := by
  unfold Findings.hasMet
  rw [Std.ExtTreeSet.contains_insert]
  constructor
  · intro h
    rcases Bool.or_eq_true_iff.mp h with h | h
    · cases Std.LawfulEqCmp.eq_of_compare (eq_of_beq h)
      exact .inr ⟨rfl, rfl⟩
    · exact .inl h
  · rintro (h | ⟨rfl, rfl⟩)
    · simp [h]
    · simp [Std.ReflCmp.compare_self]

theorem mem_entities_add {findings : Findings} {found : Option EntityRef} {r : EntityRef} :
    r ∈ (match found with
        | some r => (findings.add r).2
        | none => findings).entities ↔ r ∈ findings.entities ∨ found = some r := by
  cases found with
  | none => simp
  | some r' =>
      show r ∈ findings.entities.insert r' ↔ _
      rw [Std.ExtTreeSet.mem_insert, Std.LawfulEqCmp.compare_eq_iff_eq]
      constructor
      · rintro (rfl | h)
        · exact .inr rfl
        · exact .inl h
      · rintro (h | h)
        · exact .inr h
        · exact .inl (Option.some.inj h)

theorem met_add {findings : Findings} {found : Option EntityRef} :
    (match found with
        | some r => (findings.add r).2
        | none => findings).met = findings.met := by
  cases found <;> rfl

/-- The common part of `step`: a place is followed with the findings so far. -/
theorem advances_of_follow {place : Place} {s s' : State} {findings : Findings}
    (h : (do
      let followed ← w.follow place
      return { s with
        stack := followed.next ++ s.stack
        findings := match followed.found with
          | some r => (findings.add r).2
          | none => findings
        pruned := s.pruned + (if w.isPruned place then 1 else 0) } : Except SyncError State) =
      .ok s')
    (hentities : findings.entities = s.findings.entities)
    (hmet : ∀ node o, findings.hasMet node o = true ↔
      s.findings.hasMet node o = true ∨ node = place.1 ∧ w.guarded? place = some o)
    (hfresh : ∀ o, w.guarded? place = some o → s.findings.hasMet place.1 o = false) :
    ∃ followed, w.Advances place followed s s' := by
  obtain ⟨followed, hfollow, h⟩ := Except.bind_eq_ok.mp h
  cases Except.pure_eq_ok.mp h
  refine ⟨followed, hfollow, rfl, ?_, ?_, hfresh⟩
  · intro r
    rw [mem_entities_add, hentities]
  · intro node o
    rw [← hmet]
    simp only [Findings.hasMet, met_add]

theorem step_cases {place : Place} {s s' : State} (h : w.step place s = .ok s') :
    w.Passes place s s' ∨ ∃ followed, w.Advances place followed s s' := by
  unfold step at h
  cases hg : w.guarded? place with
  | none =>
      rw [hg] at h
      exact .inr (advances_of_follow h rfl (by simp [hg]) (by simp [hg]))
  | some object =>
      rw [hg] at h
      cases hm : s.findings.hasMet place.1 object with
      | true =>
          simp only [Findings.meet, hm, if_true] at h
          cases h
          exact .inl ⟨⟨object, hg, hm⟩, rfl, rfl⟩
      | false =>
          simp only [Findings.meet, hm, Bool.false_eq_true, if_false] at h
          refine .inr (advances_of_follow h rfl ?_ ?_)
          · intro node o
            rw [hasMet_insert, hg, Option.some_inj, eq_comm (a := o)]
          · intro o ho
            rw [hg] at ho
            cases ho
            exact hm

theorem follow_of_step_error {place : Place} {s : State} {e : SyncError}
    (h : w.step place s = .error e) : w.follow place = .error e := by
  unfold step at h
  cases hfollow : w.follow place with
  | error e' =>
      cases hg : w.guarded? place with
      | none =>
          simp only [hg, hfollow] at h
          cases h
          rfl
      | some object =>
          cases hm : s.findings.hasMet place.1 object with
          | true => simp [hg, Findings.meet, hm] at h
          | false =>
              simp only [hg, Findings.meet, hm, hfollow] at h
              cases h
              rfl
  | ok followed =>
      cases hg : w.guarded? place with
      | none => simp [hg, hfollow, bind, Except.bind, pure, Except.pure] at h
      | some object =>
          cases hm : s.findings.hasMet place.1 object with
          | true => simp [hg, Findings.meet, hm] at h
          | false =>
              simp [hg, Findings.meet, hm, hfollow, bind, Except.bind, pure, Except.pure] at h

/-! ## Soundness: whatever is found can be reached -/

/-- Every place of a walk, and every entity found, comes from places with a
property that following keeps. -/
structure Within (w : Walk schema) (P : Place → Prop) (s : State) : Prop where
  stack : ∀ p ∈ s.stack, P p
  entities : ∀ r ∈ s.findings.entities, ∃ p, P p ∧ w.Finds p r

theorem Within.step {P : Place → Prop} (hP : ∀ p q, P p → w.Leads p q → P q) {place : Place}
    {rest : List Place} {s s' : State} (h : w.Within P s) (hs : s.stack = place :: rest)
    (hstep : w.step place { s with stack := rest } = .ok s') : w.Within P s' := by
  have hplace : P place := h.stack place (hs ▸ List.mem_cons_self)
  have hrest : ∀ p ∈ rest, P p := fun p hp => h.stack p (hs ▸ List.mem_cons_of_mem _ hp)
  rcases step_cases hstep with hpass | ⟨followed, hadv⟩
  · exact ⟨by rw [hpass.stack]; exact hrest, by rw [hpass.findings]; exact h.entities⟩
  · refine ⟨?_, ?_⟩
    · intro p hp
      rw [hadv.stack, List.mem_append] at hp
      rcases hp with hp | hp
      · exact hP place p hplace ⟨followed, hadv.follow, hp⟩
      · exact hrest p hp
    · intro r hr
      rcases (hadv.entities r).mp hr with hr | hr
      · exact h.entities r hr
      · exact ⟨place, hplace, followed, hadv.follow, hr⟩

theorem Within.perm {P : Place → Prop} {s : State} {stack : List Place} (h : w.Within P s)
    (hperm : s.stack.Perm stack) : w.Within P { s with stack } :=
  ⟨fun p hp => h.stack p (hperm.mem_iff.mpr hp), h.entities⟩

/-! ## Completeness: whatever can be reached was followed -/

/-- The places in `D` have been followed: whatever they lead to is in `D` or
still on the stack, what was found there is recorded, and every pair met stands
for a place in `D`. -/
structure Covers (w : Walk schema) (D : Place → Prop) (s : State) : Prop where
  followed : ∀ p, D p → ∃ followed, w.follow p = .ok followed ∧
    (∀ q ∈ followed.next, D q ∨ q ∈ s.stack) ∧
    ∀ r, followed.found = some r → r ∈ s.findings.entities
  met : ∀ node o, s.findings.hasMet node o = true →
    ∃ p, D p ∧ p.1 = node ∧ w.guarded? p = some o

/-- Only `type` and `cast` nodes guard the objects stood on. -/
theorem object?_of_guarded {p : Place} {o : ObjectId} (h : w.guarded? p = some o) :
    p.2.object? = .ok (some o) ∧
      ((∃ static dispatch, w.arena.get? p.1 = some (.type static dispatch)) ∨
        ∃ target nested, w.arena.get? p.1 = some (.cast target nested)) := by
  unfold guarded? at h
  split at h
  · rename_i static dispatch hnode
    split at h
    · rename_i object hobject
      exact ⟨hobject.trans (congrArg _ h), .inl ⟨static, dispatch, hnode⟩⟩
    · cases h
  · rename_i target nested hnode
    split at h
    · rename_i object hobject
      exact ⟨hobject.trans (congrArg _ h), .inr ⟨target, nested, hnode⟩⟩
    · cases h
  · cases h

/-- What a guarded place leads to depends on its node and object only. -/
theorem follow_eq_of_guarded {p q : Place} {o : ObjectId} (hp : w.guarded? p = some o)
    (hq : w.guarded? q = some o) (h : p.1 = q.1) : w.follow p = w.follow q := by
  obtain ⟨id, f⟩ := p
  obtain ⟨id', g⟩ := q
  obtain rfl : id = id' := h
  obtain ⟨hf, hnode⟩ := object?_of_guarded hp
  obtain ⟨hg, -⟩ := object?_of_guarded hq
  rcases hnode with ⟨static, dispatch, hnode⟩ | ⟨target, nested, hnode⟩
  · simp only [follow, hnode, onObject, hf, hg]
  · simp only [follow, hnode, onObject, hf, hg]

theorem Covers.step {D : Place → Prop} {place : Place} {rest : List Place} {s s' : State}
    (h : w.Covers D s) (hs : s.stack = place :: rest)
    (hstep : w.step place { s with stack := rest } = .ok s') :
    w.Covers (fun p => D p ∨ p = place) s' ∧ ∀ p ∈ rest, p ∈ s'.stack := by
  have hstill : ∀ q, D q ∨ q ∈ s.stack → (D q ∨ q = place) ∨ q ∈ rest := by
    intro q hq
    rw [hs, List.mem_cons] at hq
    rcases hq with hq | hq | hq
    · exact .inl (.inl hq)
    · exact .inl (.inr hq)
    · exact .inr hq
  rcases step_cases hstep with hpass | ⟨followed, hadv⟩
  · -- the pair stands for a place in `D`, which leads to the same places
    obtain ⟨o, ho, hmet⟩ := hpass.met
    obtain ⟨twin, hD, hnode, hguard⟩ := h.met _ _ hmet
    have hlast : ∀ p, D p ∨ p = place → ∃ q, D q ∧ w.follow p = w.follow q := by
      rintro p (hp | rfl)
      · exact ⟨p, hp, rfl⟩
      · exact ⟨twin, hD, follow_eq_of_guarded ho hguard hnode.symm⟩
    refine ⟨⟨?_, ?_⟩, ?_⟩
    · intro p hp
      obtain ⟨q, hq, heq⟩ := hlast p hp
      obtain ⟨followed, hfollow, hnext, hfound⟩ := h.followed q hq
      refine ⟨followed, heq.trans hfollow, ?_, ?_⟩
      · intro r hr
        rw [hpass.stack]
        exact hstill r (hnext r hr)
      · rw [hpass.findings]
        exact hfound
    · intro node o hm
      rw [hpass.findings] at hm
      obtain ⟨p, hp, h'⟩ := h.met node o hm
      exact ⟨p, .inl hp, h'⟩
    · rw [hpass.stack]
      exact fun _ hp => hp
  · have hrest : ∀ p ∈ rest, p ∈ s'.stack := by
      intro p hp
      rw [hadv.stack]
      exact List.mem_append_right _ hp
    refine ⟨⟨?_, ?_⟩, hrest⟩
    · rintro p (hp | rfl)
      · obtain ⟨followed', hfollow, hnext, hfound⟩ := h.followed p hp
        refine ⟨followed', hfollow, ?_, fun r hr => (hadv.entities r).mpr (.inl (hfound r hr))⟩
        intro q hq
        exact (hstill q (hnext q hq)).imp_right (hrest q)
      · refine ⟨followed, hadv.follow, ?_, fun r hr => (hadv.entities r).mpr (.inr hr)⟩
        intro q hq
        rw [hadv.stack]
        exact .inr (List.mem_append_left _ hq)
    · intro node o hm
      rcases (hadv.met node o).mp hm with hm | ⟨hnode, hguard⟩
      · obtain ⟨p, hp, h'⟩ := h.met node o hm
        exact ⟨p, .inl hp, h'⟩
      · exact ⟨place, .inr rfl, hnode.symm, hguard⟩

theorem Covers.perm {D : Place → Prop} {s : State} {stack : List Place} (h : w.Covers D s)
    (hperm : s.stack.Perm stack) : w.Covers D { s with stack } where
  followed p hp := by
    obtain ⟨followed, hfollow, hnext, hfound⟩ := h.followed p hp
    exact ⟨followed, hfollow, fun q hq => (hnext q hq).imp_right hperm.mem_iff.mp, hfound⟩
  met := h.met

/-! ## Any order -/

/-- A walk that takes any place off its stack, not only the topmost: so many steps lead
from one state to another. -/
inductive Roams (w : Walk schema) : Nat → State → State → Prop where
  | refl (s : State) : Roams w 0 s s
  | head {n : Nat} {s mid s' : State} {place : Place} {rest : List Place} :
      s.stack.Perm (place :: rest) → w.step place { s with stack := rest } = .ok mid →
      Roams w n mid s' → Roams w (n + 1) s s'

/-- How such a walk comes to an end. -/
inductive Stops (w : Walk schema) (s : State) : Ending → Prop where
  | finished : s.stack = [] → Stops w s .finished
  | failed {place : Place} {rest : List Place} {e : SyncError} :
      s.stack.Perm (place :: rest) → w.step place { s with stack := rest } = .error e →
      Stops w s (.failed e)

/-- Taking the topmost place is one order among others. -/
theorem roams_of_runFor {n : Nat} {s s' : State} {ending : Ending}
    (h : w.runFor n s = (ending, s')) (hends : ending ≠ .exhausted) :
    ∃ m, w.Roams m s s' ∧ w.Stops s' ending := by
  induction n generalizing s with
  | zero =>
      cases hs : s.stack with
      | nil =>
          simp only [runFor, hs, List.isEmpty_nil, if_true] at h
          cases h
          exact ⟨0, .refl _, .finished hs⟩
      | cons place rest =>
          simp only [runFor, hs, List.isEmpty_cons, Bool.false_eq_true, if_false] at h
          cases h
          exact absurd rfl hends
  | succ n ih =>
      cases hs : s.stack with
      | nil =>
          simp only [runFor, hs] at h
          cases h
          exact ⟨0, .refl _, .finished hs⟩
      | cons place rest =>
          simp only [runFor, hs] at h
          cases hstep : w.step place { s with stack := rest } with
          | error e =>
              simp only [hstep] at h
              cases h
              exact ⟨0, .refl _, .failed (.of_eq hs) hstep⟩
          | ok mid =>
              simp only [hstep] at h
              obtain ⟨m, hroams, hstops⟩ := ih h
              exact ⟨m + 1, .head (.of_eq hs) hstep hroams, hstops⟩

theorem Within.roams {P : Place → Prop} (hP : ∀ p q, P p → w.Leads p q → P q) {n : Nat}
    {s s' : State} (h : w.Within P s) (hroams : w.Roams n s s') : w.Within P s' := by
  induction hroams with
  | refl => exact h
  | head hperm hstep _ ih => exact ih ((h.perm hperm).step hP rfl hstep)

/-- Whatever a walk has had on its stack is still there or has been followed. -/
theorem Covers.roams {D : Place → Prop} {n : Nat} {s s' : State} (h : w.Covers D s)
    (hroams : w.Roams n s s') :
    ∃ D', w.Covers D' s' ∧ ∀ p, D p ∨ p ∈ s.stack → D' p ∨ p ∈ s'.stack := by
  induction hroams generalizing D with
  | refl => exact ⟨D, h, fun _ => id⟩
  | @head _ s mid _ place rest hperm hstep _ ih =>
      obtain ⟨hmid, hrest⟩ := (h.perm hperm).step rfl hstep
      obtain ⟨D', hD', hsub⟩ := ih hmid
      refine ⟨D', hD', fun p hp => hsub p ?_⟩
      rcases hp with hp | hp
      · exact .inl (.inl hp)
      · rcases List.mem_cons.mp (hperm.mem_iff.mp hp) with rfl | hp
        · exact .inl (.inr rfl)
        · exact .inr (hrest p hp)

/-! ## Finished and failed walks -/

/-- A place that a walk from the given nodes can reach. -/
def Reachable (w : Walk schema) (nodes : List NodeId) (object : ObjectId) (p : Place) : Prop :=
  ∃ node ∈ nodes, ∃ n, w.Reaches n (node, .object object) p

theorem mem_start {nodes : List NodeId} {object : ObjectId} {p : Place} :
    p ∈ (start nodes object).stack ↔ ∃ node ∈ nodes, p = (node, .object object) := by
  simp only [start, List.mem_map, List.mem_reverse]
  constructor
  · rintro ⟨node, hnode, rfl⟩
    exact ⟨node, hnode, rfl⟩
  · rintro ⟨node, hnode, rfl⟩
    exact ⟨node, hnode, rfl⟩

theorem within_start {nodes : List NodeId} {object : ObjectId} :
    w.Within (w.Reachable nodes object) (start nodes object) where
  stack := by
    intro p hp
    obtain ⟨node, hnode, rfl⟩ := mem_start.mp hp
    exact ⟨node, hnode, 0, .refl _⟩
  entities := by
    intro r hr
    simp [start, Findings.empty] at hr

theorem Reachable.leads {nodes : List NodeId} {object : ObjectId} {p q : Place}
    (h : w.Reachable nodes object p) (h' : w.Leads p q) : w.Reachable nodes object q := by
  obtain ⟨node, hnode, n, hn⟩ := h
  exact ⟨node, hnode, n + 1, hn.tail h'⟩

theorem covers_start {nodes : List NodeId} {object : ObjectId} :
    w.Covers (fun _ => False) (start nodes object) where
  followed := fun _ h => h.elim
  met := by
    intro node o h
    simp [start, Findings.empty, Findings.hasMet] at h

section

variable {nodes : List NodeId} {object : ObjectId} {n : Nat} {s : State}

/-- With nothing left on its stack, a walk has followed every place that it can reach,
whatever the order. -/
theorem follow_of_roams (h : w.Roams n (start nodes object) s) (hstack : s.stack = [])
    {p : Place} (hp : w.Reachable nodes object p) :
    ∃ followed, w.follow p = .ok followed ∧
      ∀ r, followed.found = some r → r ∈ s.findings.entities := by
  obtain ⟨D, hD, hstart⟩ := covers_start.roams h
  have hdone : ∀ p, D p ∨ p ∈ s.stack → D p := by
    intro p hp
    rw [hstack] at hp
    exact hp.resolve_right List.not_mem_nil
  obtain ⟨node, hnode, m, hm⟩ := hp
  suffices hDp : D p by
    obtain ⟨followed, hfollow, -, hfound⟩ := hD.followed p hDp
    exact ⟨followed, hfollow, hfound⟩
  -- `D` holds whatever its places lead to
  have hclosed : ∀ {m p q}, w.Reaches m p q → D p → D q := by
    intro m p q hpq
    induction hpq with
    | refl => exact id
    | head hlead _ ih =>
        intro hp
        obtain ⟨followed, hfollow, hnext, -⟩ := hD.followed _ hp
        obtain ⟨followed', hfollow', hq⟩ := hlead
        cases hfollow.symm.trans hfollow'
        exact ih (hdone _ (hnext _ hq))
  exact hclosed hm (hdone _ (hstart _ (.inr (mem_start.mpr ⟨node, hnode, rfl⟩))))

/-- It has then found what can be reached, no more and no less. -/
theorem mem_entities_iff_of_roams (h : w.Roams n (start nodes object) s) (hstack : s.stack = [])
    (r : EntityRef) :
    r ∈ s.findings.entities ↔ ∃ p, w.Reachable nodes object p ∧ w.Finds p r := by
  constructor
  · intro hr
    exact (within_start.roams (fun _ _ => Reachable.leads) h).entities r hr
  · rintro ⟨p, hp, followed, hfollow, hfound⟩
    obtain ⟨followed', hfollow', hr⟩ := follow_of_roams h hstack hp
    cases hfollow.symm.trans hfollow'
    exact hr r hfound

/-- A walk that fails has reached the place where it fails, whatever the order. -/
theorem exists_of_stops (h : w.Roams n (start nodes object) s) {e : SyncError}
    (hstops : w.Stops s (.failed e)) : ∃ p, w.Reachable nodes object p ∧ w.follow p = .error e := by
  cases hstops with
  | @failed place rest _ hperm hstep =>
      have hplace : place ∈ s.stack := hperm.mem_iff.mpr List.mem_cons_self
      have hwithin := within_start.roams (fun _ _ => Reachable.leads) h
      exact ⟨place, hwithin.stack place hplace, follow_of_step_error hstep⟩

end

theorem roams_of_run {nodes : List NodeId} {object : ObjectId} {s : State} {ending : Ending}
    (h : w.run nodes object = (ending, s)) (hends : ending ≠ .exhausted) :
    ∃ n, w.Roams n (start nodes object) s ∧ w.Stops s ending := by
  rw [run_eq_runFor] at h
  exact roams_of_runFor h hends

/-- A finished walk has followed every place that it can reach. -/
theorem follow_of_finished {nodes : List NodeId} {object : ObjectId} {s : State}
    (h : w.run nodes object = (.finished, s)) {p : Place} (hp : w.Reachable nodes object p) :
    ∃ followed, w.follow p = .ok followed ∧
      ∀ r, followed.found = some r → r ∈ s.findings.entities := by
  obtain ⟨n, hroams, ⟨hstack⟩⟩ := roams_of_run h nofun
  exact follow_of_roams hroams hstack hp

/-- A finished walk has found what can be reached, no more and no less. -/
theorem mem_entities_iff {nodes : List NodeId} {object : ObjectId} {s : State}
    (h : w.run nodes object = (.finished, s)) (r : EntityRef) :
    r ∈ s.findings.entities ↔ ∃ p, w.Reachable nodes object p ∧ w.Finds p r := by
  obtain ⟨n, hroams, ⟨hstack⟩⟩ := roams_of_run h nofun
  exact mem_entities_iff_of_roams hroams hstack r

/-- A failed walk has reached the place where it failed. -/
theorem exists_of_failed {nodes : List NodeId} {object : ObjectId} {s : State} {e : SyncError}
    (h : w.run nodes object = (.failed e, s)) :
    ∃ p, w.Reachable nodes object p ∧ w.follow p = .error e := by
  obtain ⟨n, hroams, hstops⟩ := roams_of_run h nofun
  exact exists_of_stops hroams hstops

end IndexSync.Walk
