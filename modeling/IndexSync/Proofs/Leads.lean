import IndexSync.Mapping.Trigger
import IndexSync.ObjectStore.Basic

/-!
# Where backlinks lead

The meaning of paths and backlinks in a store, as relations.

- `TypedStep.Leads`, `stepsLead` — reading a property, opening what it holds,
  and keeping the objects that fit a cast; null leads nowhere.
- `Backlink.Leads`, `chainLeads` — the way back over one association, and over
  several one after another.
- `Move.Leads`, `movesLead` — the same in elementary moves.  A chain leads where
  its moves lead (`movesLead_chainMoves_iff`).
-/

namespace IndexSync

variable {schema : Schema}

/-- A live object whose runtime type fits `type`. -/
def ObjectStore.IsA (s : ObjectStore schema) (o : ObjectId) (type : TypeName) : Prop :=
  ∃ t, s.runtimeType o = .ok t ∧ schema.fits t type = true

/-- Values that stay under a cast: all of them without one, and otherwise
references to objects that fit. -/
def ObjectStore.Keeps (s : ObjectStore schema) (cast : Option TypeName) (v : Value) : Prop :=
  ∀ type ∈ cast, ∃ o, v = .ref o ∧ s.IsA o type

/-- What the extractors take out of a value, one after another. -/
def Extractor.Opens : List Extractor → Value → Value → Prop
  | [], v, w => v = w
  | e :: es, v, w =>
      ∃ items u, e.elements? v = some items ∧ u ∈ items ∧ u.isNull = false ∧ Opens es u w

/-- One step leads from an object to a value. -/
def TypedStep.Leads (s : ObjectStore schema) (step : TypedStep) (o : ObjectId) (w : Value) :
    Prop :=
  ∃ v, s.read o step.property = .ok v ∧ v.isNull = false ∧
    Extractor.Opens step.extractors v w ∧ s.Keeps step.cast w

/-- Steps lead from a value to a value; every step starts at an object. -/
def stepsLead (s : ObjectStore schema) : List TypedStep → Value → Value → Prop
  | [], v, w => v = w
  | step :: rest, v, w => ∃ o u, v = .ref o ∧ step.Leads s o u ∧ stepsLead s rest u w

/-- A backlink leads from an object to an object. -/
structure Backlink.Leads (s : ObjectStore schema) (b : Backlink) (o x : ObjectId) : Prop where
  start : ∀ type ∈ b.startCast, s.IsA o type
  steps : stepsLead s b.steps (.ref o) (.ref x)
  finish : ∀ type ∈ b.endCast, s.IsA x type
  land : s.IsA x b.land

/-- Backlinks one after another; none of them stay at the object. -/
def chainLeads (s : ObjectStore schema) : List Backlink → ObjectId → ObjectId → Prop
  | [], o, x => o = x
  | b :: rest, o, x => ∃ y, b.Leads s o y ∧ chainLeads s rest y x

/-! ## Moves -/

/-- One move leads from a value to a value. -/
def Move.Leads (s : ObjectStore schema) : Move → Value → Value → Prop
  | .read property, v, w => ∃ o, v = .ref o ∧ s.read o property = .ok w ∧ w.isNull = false
  | .extract e, v, w => ∃ items, e.elements? v = some items ∧ w ∈ items ∧ w.isNull = false
  | .cast type, v, w | .land type, v, w => ∃ o, v = .ref o ∧ s.IsA o type ∧ w = v

/-- Moves one after another. -/
def movesLead (s : ObjectStore schema) : List Move → Value → Value → Prop
  | [], v, w => v = w
  | m :: ms, v, w => ∃ u, m.Leads s v u ∧ movesLead s ms u w

variable {s : ObjectStore schema}

theorem movesLead_append {ms ns : List Move} {v w : Value} :
    movesLead s (ms ++ ns) v w ↔ ∃ u, movesLead s ms v u ∧ movesLead s ns u w := by
  induction ms generalizing v with
  | nil => simp [movesLead]
  | cons m ms ih =>
      simp only [List.cons_append, movesLead, ih]
      constructor
      · rintro ⟨u, hu, x, hx, hw⟩
        exact ⟨x, ⟨u, hu, hx⟩, hw⟩
      · rintro ⟨x, ⟨u, hu, hx⟩, hw⟩
        exact ⟨u, hu, x, hx, hw⟩

theorem movesLead_extractors {es : List Extractor} {v w : Value} :
    movesLead s (es.map .extract) v w ↔ Extractor.Opens es v w := by
  induction es generalizing v with
  | nil => rfl
  | cons e es ih =>
      simp only [List.map_cons, movesLead, Move.Leads, Extractor.Opens, ih]
      constructor
      · rintro ⟨u, ⟨items, hitems, hu, hnull⟩, hw⟩
        exact ⟨items, u, hitems, hu, hnull, hw⟩
      · rintro ⟨items, u, hitems, hu, hnull, hw⟩
        exact ⟨u, ⟨items, hitems, hu, hnull⟩, hw⟩

theorem movesLead_cast {cast : Option TypeName} {v w : Value} :
    movesLead s (cast.toList.map .cast) v w ↔ v = w ∧ s.Keeps cast v := by
  cases cast with
  | none => simp [movesLead, ObjectStore.Keeps]
  | some type =>
      simp only [Option.toList_some, List.map_cons, List.map_nil, movesLead, Move.Leads,
        ObjectStore.Keeps, Option.mem_some_iff, forall_eq']
      constructor
      · rintro ⟨u, ⟨o, hv, ho, rfl⟩, rfl⟩
        exact ⟨rfl, o, hv, ho⟩
      · rintro ⟨rfl, o, hv, ho⟩
        exact ⟨v, ⟨o, hv, ho, rfl⟩, rfl⟩

theorem movesLead_step {step : TypedStep} {v w : Value} :
    movesLead s step.moves v w ↔ ∃ o, v = .ref o ∧ step.Leads s o w := by
  rw [TypedStep.moves, List.cons_append, movesLead]
  simp only [movesLead_append, movesLead_extractors, movesLead_cast]
  constructor
  · rintro ⟨u, ⟨o, hv, hread, hnull⟩, x, hopen, rfl, hkeep⟩
    exact ⟨o, hv, u, hread, hnull, hopen, hkeep⟩
  · rintro ⟨o, hv, u, hread, hnull, hopen, hkeep⟩
    exact ⟨u, ⟨o, hv, hread, hnull⟩, w, hopen, rfl, hkeep⟩

theorem movesLead_steps {steps : List TypedStep} {v w : Value} :
    movesLead s (steps.flatMap (·.moves)) v w ↔ stepsLead s steps v w := by
  induction steps generalizing v with
  | nil => rfl
  | cons step steps ih =>
      rw [List.flatMap_cons, movesLead_append]
      simp only [movesLead_step, stepsLead, ih]
      constructor
      · rintro ⟨u, ⟨o, hv, hu⟩, hw⟩
        exact ⟨o, u, hv, hu, hw⟩
      · rintro ⟨o, u, hv, hu, hw⟩
        exact ⟨u, ⟨o, hv, hu⟩, hw⟩

/-- A backlink leads where its moves lead. -/
theorem movesLead_backlink {b : Backlink} {o : ObjectId} {w : Value} :
    movesLead s b.moves (.ref o) w ↔ ∃ x, w = .ref x ∧ b.Leads s o x := by
  simp only [Backlink.moves, movesLead_append, movesLead_cast, movesLead_steps]
  constructor
  · rintro ⟨v, ⟨u, ⟨_, ⟨rfl, hstart⟩, hsteps⟩, rfl, hfinish⟩, hland⟩
    obtain ⟨_, ⟨x, rfl, hx, rfl⟩, rfl⟩ := hland
    refine ⟨x, rfl, ?_, hsteps, ?_, hx⟩
    · intro type htype
      obtain ⟨_, ho, his⟩ := hstart type htype
      exact Value.ref.inj ho ▸ his
    · intro type htype
      obtain ⟨_, ho, his⟩ := hfinish type htype
      exact Value.ref.inj ho ▸ his
  · rintro ⟨x, rfl, hx⟩
    exact ⟨.ref x, ⟨.ref x, ⟨.ref o, ⟨rfl, fun type h => ⟨o, rfl, hx.start type h⟩⟩, hx.steps⟩,
      rfl, fun type h => ⟨x, rfl, hx.finish type h⟩⟩, .ref x, ⟨x, rfl, hx.land, rfl⟩, rfl⟩

/-- A chain leads where its moves lead. -/
theorem movesLead_chainMoves_iff {chain : List Backlink} {o : ObjectId} {w : Value} :
    movesLead s (chainMoves chain) (.ref o) w ↔ ∃ x, w = .ref x ∧ chainLeads s chain o x := by
  induction chain generalizing o with
  | nil =>
      show Value.ref o = w ↔ ∃ x, w = .ref x ∧ o = x
      constructor
      · rintro rfl
        exact ⟨o, rfl, rfl⟩
      · rintro ⟨_, rfl, rfl⟩
        rfl
  | cons b chain ih =>
      rw [chainMoves, List.flatMap_cons, movesLead_append]
      simp only [movesLead_backlink]
      constructor
      · rintro ⟨_, ⟨y, rfl, hy⟩, hw⟩
        obtain ⟨x, hx, hchain⟩ := ih.mp hw
        exact ⟨x, hx, y, hy, hchain⟩
      · rintro ⟨x, hx, y, hy, hchain⟩
        exact ⟨.ref y, ⟨y, rfl, hy⟩, ih.mpr ⟨x, hx, hchain⟩⟩

/-! ## Chains end where they land -/

@[simp] theorem chainEnd_nil (start : TypeName) : chainEnd [] start = start := rfl

@[simp] theorem chainEnd_cons (b : Backlink) (chain : List Backlink) (start : TypeName) :
    chainEnd (b :: chain) start = chainEnd chain b.land := by
  rw [chainEnd, chainEnd, List.getLast?_cons]
  cases chain.getLast? <;> rfl

/-- A chain with any backlink ends where the last of them lands. -/
theorem chainEnd_congr {chain : List Backlink} (h : chain ≠ []) (start start' : TypeName) :
    chainEnd chain start = chainEnd chain start' := by
  obtain ⟨b, rest, rfl⟩ := List.exists_cons_of_ne_nil h
  rw [chainEnd_cons, chainEnd_cons]

/-- The moves of a chain end with a landing where the chain ends. -/
theorem exists_land_at_chainEnd {chain : List Backlink} (h : chain ≠ []) (start : TypeName) :
    ∃ before, chainMoves chain = before ++ [.land (chainEnd chain start)] := by
  obtain ⟨links, b, rfl⟩ := (List.eq_nil_or_concat chain).resolve_left h
  refine ⟨chainMoves links ++ (b.startCast.toList.map .cast ++ b.steps.flatMap (·.moves) ++
    b.endCast.toList.map .cast), ?_⟩
  simp [chainMoves, chainEnd, Backlink.moves]

theorem exists_land_of_chain {chain : List Backlink} (h : chain ≠ []) :
    ∃ before static, chainMoves chain = before ++ [.land static] := by
  obtain ⟨before, hland⟩ := exists_land_at_chainEnd h ""
  exact ⟨before, _, hland⟩

/-- The object at the end of a chain fits the type that the chain lands on. -/
theorem isA_chainEnd {chain : List Backlink} {start : TypeName} {o x : ObjectId}
    (ho : s.IsA o start) (h : chainLeads s chain o x) : s.IsA x (chainEnd chain start) := by
  induction chain generalizing o start with
  | nil =>
      cases h
      exact ho
  | cons b chain ih =>
      obtain ⟨y, hy, hx⟩ := h
      rw [chainEnd_cons]
      exact ih hy.land hx

end IndexSync
