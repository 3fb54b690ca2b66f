import Mathlib.Data.List.Chain
import IndexSync.Mapping.Backlink
import IndexSync.Proofs.Path.Names
import IndexSync.Proofs.Path.Written
import IndexSync.Sample.Couple
import IndexSync.Sample.Shop

/-!
# Typed paths spelled out

Typing a path settles how every container on the way is opened.  Written down with all its
extractors, a typed path is a text of its own, and typing that text settles nothing new.

- `TypedStep.spelled`, `Path.spelled` — the path that says everything itself.
- `TypedStep.Types` — a step is what the declarations make of a part.
- `elaborateSteps_spelled` — the path spelled out is typed as the steps that it spells; by
  induction on the parts.
- `elaborate_canonical` — typed paths in general, and the text that they print.
-/

namespace IndexSync

variable {m : Schema}

/-- What is left of a type when extractors open it one after another. -/
def PropertyType.opened? (type : PropertyType) (extractors : List Extractor) :
    Option PropertyType :=
  extractors.foldlM PropertyType.element? type

/-- A part that spells the step out. -/
def TypedStep.spelled (s : TypedStep) : PathPart where
  property := s.property
  extractors := s.extractors.map some
  cast := s.cast

/-- A path that spells the steps out. -/
def Path.spelled (steps : List TypedStep) : Path where
  parts := steps.map (·.spelled)

/-- The step is what the declarations make of the part: what the part says is kept, the
extractors open the declared type one after another, and a cast narrows the references that
they come to. -/
structure TypedStep.Types (m : Schema) (part : PathPart) (s : TypedStep) : Prop where
  property : s.property = part.property
  cast : s.cast = part.cast
  written : ∃ es implied, s.extractors = es ++ implied ∧
    List.Forall₂ (fun e? e => ∀ e' ∈ e?, e' = e) part.extractors es
  opens : ∃ p opened, m.property? s.owner s.property = some p ∧
    p.type.opened? s.extractors = some opened ∧
      (s.cast = none ∧ s.element = opened ∨
        ∃ type declared, s.cast = some type ∧ opened = .object declared ∧
          m.fits type declared = true ∧ s.element = .object type)
  declared : ∀ type ∈ s.element.target?, m.declares type = true

theorem TypedStep.render_spelled (s : TypedStep) : s.spelled.render = s.render := by
  rw [PathPart.render, TypedStep.render, spelled, List.map_map]
  rfl

theorem Path.render_spelled (steps : List TypedStep) :
    (Path.spelled steps).render = dotted (steps.map (·.render)) := by
  rw [Path.render, Path.spelled, List.map_map]
  exact congrArg dotted (List.map_congr_left fun s _ => s.render_spelled)

namespace PropertyType

theorem opened?_cons {type mid : PropertyType} {e : Extractor} (h : type.element? e = some mid)
    (es : List Extractor) : type.opened? (e :: es) = mid.opened? es := by
  rw [opened?, List.foldlM_cons, h]
  rfl

theorem opened?_append {type mid : PropertyType} {es : List Extractor}
    (h : type.opened? es = some mid) (es' : List Extractor) :
    type.opened? (es ++ es') = mid.opened? es' := by
  rw [opened?, List.foldlM_append]
  show (type.opened? es >>= fun mid => mid.opened? es') = _
  rw [h]
  rfl

end PropertyType

namespace Path

/-! ## Opening containers -/

theorem opened?_of_openWritten {name : String} {written : List (Option Extractor)}
    {type element : PropertyType} {es : List Extractor}
    (h : openWritten name type written = .ok (es, element)) :
    type.opened? es = some element ∧ List.Forall₂ (fun e? e => ∀ e' ∈ e?, e' = e) written es := by
  induction written generalizing type es with
  | nil =>
      cases h
      exact ⟨rfl, .nil⟩
  | cons e? written ih =>
      obtain ⟨e, mid, es', he, hmid, hrest, rfl⟩ := openWritten_cons_eq_ok_iff.mp h
      obtain ⟨hopened, hwritten⟩ := ih hrest
      refine ⟨?_, .cons ?_ hwritten⟩
      · rw [PropertyType.opened?_cons hmid, hopened]
      · rintro e' ⟨⟩
        exact Option.some.inj he

theorem openWritten_spelled (name : String) {type element : PropertyType} {es : List Extractor}
    (h : type.opened? es = some element) :
    openWritten name type (es.map some) = .ok (es, element) := by
  induction es generalizing type with
  | nil =>
      cases h
      rfl
  | cons e es ih =>
      cases hmid : type.element? e with
      | none =>
          rw [PropertyType.opened?, List.foldlM_cons, hmid] at h
          cases h
      | some mid =>
          rw [PropertyType.opened?_cons hmid] at h
          exact openWritten_cons_eq_ok_iff.mpr ⟨e, mid, es, rfl, hmid, ih h, rfl⟩

theorem opened?_openUsual (type : PropertyType) :
    type.opened? (openUsual type).1 = some (openUsual type).2 := by
  induction type with
  | scalar | object => rfl
  | list e ih | set e ih | array e ih | optional e ih | map _ e _ ih => exact ih

/-- What has been opened as usual holds no containers any more. -/
theorem openUsual_openUsual (type : PropertyType) :
    openUsual (openUsual type).2 = ([], (openUsual type).2) := by
  induction type with
  | scalar | object => rfl
  | list e ih | set e ih | array e ih | optional e ih | map _ e _ ih => exact ih

/-! ## Steps -/

theorem declares_of_checkTarget {name : String} {element : PropertyType}
    (h : checkTarget m name element = .ok ()) :
    ∀ type ∈ element.target?, m.declares type = true := by
  intro type htype
  cases element with
  | object target =>
      cases htype
      rw [checkTarget] at h
      by_contra hnot
      rw [if_neg hnot] at h
      cases h
  | scalar | list | set | array | optional | map => cases htype

theorem narrow_eq_ok {inner element : PropertyType} {cast : Option TypeName}
    (h : narrow m inner cast = .ok element) :
    cast = none ∧ element = inner ∨ ∃ type declared, cast = some type ∧ inner = .object declared ∧
      m.fits type declared = true ∧ element = .object type := by
  cases cast with
  | none =>
      cases h
      exact .inl ⟨rfl, rfl⟩
  | some type =>
      right
      unfold narrow at h
      dsimp only at h
      split at h
      · rename_i declared
        split at h
        · cases h
        · split at h
          · cases h
          · rename_i hfits
            cases h
            exact ⟨type, declared, rfl, rfl, by simpa using hfits, rfl⟩
      · cases h

/-- What has been opened, as it is written and as usual, is the declared type. -/
theorem opened?_of_elaborateStep {name : String} {type opened inner : PropertyType}
    {written : List (Option Extractor)} {es implied : List Extractor} {all : Bool}
    (hwritten : openWritten name type written = .ok (es, opened))
    (hopening : (implied, inner) = if all then openUsual opened else ([], opened)) :
    type.opened? (es ++ implied) = some inner := by
  rw [PropertyType.opened?_append (opened?_of_openWritten hwritten).1]
  split at hopening
  · have husual := opened?_openUsual opened
    rw [← hopening] at husual
    exact husual
  · cases hopening
    rfl

theorem types_of_elaborateStep {owner : TypeName} {unwrapped : Bool} {part : PathPart}
    {step : TypedStep} (h : elaborateStep m owner unwrapped part = .ok step) :
    step.Types m part ∧ step.owner = owner := by
  obtain ⟨p, es, opened, implied, inner, element, hp, hwritten, hopening, hnarrow, hcheck,
    rfl⟩ := elaborateStep_eq_ok_iff.mp h
  have hopened := opened?_of_elaborateStep hwritten hopening
  refine ⟨⟨rfl, rfl, ?_, ?_, ?_⟩, rfl⟩
  · exact ⟨es, implied, rfl, (opened?_of_openWritten hwritten).2⟩
  · exact ⟨p, inner, hp, hopened, narrow_eq_ok hnarrow⟩
  · exact declares_of_checkTarget hcheck

/-- Spelled out, a part is typed as it was: what has been opened as usual needs no more
opening. -/
theorem elaborateStep_spelled {owner : TypeName} {unwrapped : Bool} {part : PathPart}
    {step : TypedStep} (h : elaborateStep m owner unwrapped part = .ok step) :
    elaborateStep m owner unwrapped step.spelled = .ok step := by
  obtain ⟨p, es, opened, implied, inner, element, hp, hwritten, hopening, hnarrow, hcheck,
    rfl⟩ := elaborateStep_eq_ok_iff.mp h
  have hopened := opened?_of_elaborateStep hwritten hopening
  have hagain : ([], inner) =
      if unwrapped || part.cast.isSome then openUsual inner else ([], inner) := by
    split at hopening
    · rename_i hall
      have husual := openUsual_openUsual opened
      rw [← hopening] at husual
      rw [if_pos hall]
      exact husual.symm
    · rename_i hclosed
      rw [if_neg hclosed]
  exact elaborateStep_eq_ok_iff.mpr ⟨p, es ++ implied, inner, [], inner, element, hp,
    openWritten_spelled _ hopened, hagain, hnarrow, hcheck, by simp [TypedStep.spelled]⟩

/-! ## Whole paths -/

theorem types_of_elaborateSteps {goal : PathGoal} {owner : TypeName} {parts : List PathPart}
    {steps : List TypedStep} (h : elaborateSteps m goal owner parts = .ok steps) :
    List.Forall₂ (fun part step => step.Types m part) parts steps := by
  induction parts generalizing owner steps with
  | nil =>
      cases h
      exact .nil
  | cons part rest ih =>
      rcases elaborateSteps_cons_eq_ok_iff.mp h with
        ⟨typed, rfl, htyped, -, rfl⟩ | ⟨typed, target, steps', -, htyped, -, hsteps, rfl⟩
      · exact .cons (types_of_elaborateStep htyped).1 .nil
      · exact .cons (types_of_elaborateStep htyped).1 (ih hsteps)

/-- The first step is read on the owner, and every other one on the objects that the step in
front of it comes to. -/
theorem isChain_of_elaborateSteps {goal : PathGoal} {owner : TypeName} {parts : List PathPart}
    {steps : List TypedStep} (h : elaborateSteps m goal owner parts = .ok steps) :
    (∀ first ∈ steps.head?, first.owner = owner) ∧
      steps.IsChain fun s s' => s.element = .object s'.owner := by
  induction parts generalizing owner steps with
  | nil =>
      cases h
      exact ⟨nofun, .nil⟩
  | cons part rest ih =>
      rcases elaborateSteps_cons_eq_ok_iff.mp h with
        ⟨typed, -, htyped, -, rfl⟩ | ⟨typed, target, steps', -, htyped, htarget, hsteps, rfl⟩
      · refine ⟨?_, .singleton _⟩
        rintro _ ⟨⟩
        exact (types_of_elaborateStep htyped).2
      · obtain ⟨hfirst, hchain⟩ := ih hsteps
        refine ⟨?_, List.isChain_cons.mpr ⟨fun next hnext => ?_, hchain⟩⟩
        · rintro _ ⟨⟩
          exact (types_of_elaborateStep htyped).2
        · rw [htarget, hfirst next hnext]

/-- Spelled out, typed parts are typed as the steps that they spell. -/
theorem elaborateSteps_spelled {goal : PathGoal} {owner : TypeName} {parts : List PathPart}
    {steps : List TypedStep} (h : elaborateSteps m goal owner parts = .ok steps) :
    elaborateSteps m goal owner (steps.map (·.spelled)) = .ok steps := by
  induction parts generalizing owner steps with
  | nil =>
      cases h
      rfl
  | cons part rest ih =>
      rcases elaborateSteps_cons_eq_ok_iff.mp h with
        ⟨typed, -, htyped, hobjects, rfl⟩ |
          ⟨typed, target, steps', hne, htyped, htarget, hsteps, rfl⟩
      · exact elaborateSteps_cons_eq_ok_iff.mpr
          (.inl ⟨typed, rfl, elaborateStep_spelled htyped, hobjects, rfl⟩)
      · have hlength := (types_of_elaborateSteps hsteps).length_eq
        have hne' : steps'.map (·.spelled) ≠ [] := by
          intro hnil
          rw [List.map_eq_nil_iff.mp hnil] at hlength
          exact hne (List.eq_nil_of_length_eq_zero hlength)
        exact elaborateSteps_cons_eq_ok_iff.mpr
          (.inr ⟨typed, target, steps', hne', elaborateStep_spelled htyped, htarget, ih hsteps,
            rfl⟩)

/-- The steps of a written path can be written. -/
theorem plain_spelled {path : Path} {steps : List TypedStep} (hplain : path.Plain)
    (h : List.Forall₂ (fun part step => step.Types m part) path.parts steps) :
    (spelled steps).Plain where
  nonempty := by
    intro hnil
    have hlength := h.length_eq
    rw [List.map_eq_nil_iff.mp hnil] at hlength
    exact hplain.nonempty (List.eq_nil_of_length_eq_zero hlength)
  parts := by
    intro part hpart
    obtain ⟨step, hstep, rfl⟩ := List.mem_map.mp hpart
    obtain ⟨part, hpart, htypes⟩ := List.Forall₂.exists_left h hstep
    obtain ⟨hproperty, hcast⟩ := hplain.parts part hpart
    constructor
    · rw [TypedStep.spelled, htypes.property]
      exact hproperty
    · rw [TypedStep.spelled, htypes.cast]
      exact hcast

/-- Typing a path settles all that the path leaves open, and nothing more.  There is one step
for each part: read on the type that the steps in front of it come to, opened and narrowed as
the declared type of its property allows, and only the last one may come to anything but
objects, where the goal lets it.  The names are those of the path.  Written down with all
extractors, as backlinks are displayed, the steps make a path that is typed as these same
steps. -/
theorem elaborate_canonical {owner : TypeName} {goal : PathGoal} {text : String} {path : Path}
    {steps : List TypedStep} (hpath : parse text = .ok path)
    (h : path.elaborate m owner goal = .ok steps) :
    List.Forall₂ (fun part step => step.Types m part) path.parts steps ∧
      (∀ first ∈ steps.head?, first.owner = owner) ∧
      (steps.IsChain fun s s' => s.element = .object s'.owner) ∧
      (goal = .objects → ∀ last ∈ steps.getLast?, last.element.target?.isSome) ∧
      stepNames steps = path.names ∧
      ∃ path', parse (dotted (steps.map (·.render))) = .ok path' ∧
        path'.elaborate m owner goal = .ok steps := by
  have htypes := types_of_elaborateSteps h
  obtain ⟨hfirst, hchain⟩ := isChain_of_elaborateSteps h
  have hplain := plain_spelled (parse_eq_ok_iff.mp hpath).1 htypes
  refine ⟨htypes, hfirst, hchain, ?goal, ?names, spelled steps, ?parse, elaborateSteps_spelled h⟩
  case goal =>
    rintro rfl
    exact target?_isSome_of_elaborateSteps h
  case names =>
    rw [stepNames, names, properties_of_elaborateSteps h]
  case parse =>
    rw [← render_spelled]
    exact parse_eq_ok_iff.mpr ⟨hplain, rfl⟩

end Path

namespace Sample

def shopSchema : Schema :=
  (Schema.ofDefinitions shop.types).value (by decide +kernel)

def shopPath : Path :=
  (Path.parse "customer<Customer>.orders.total").value (by decide +kernel)

def shopSteps : List TypedStep :=
  (shopPath.elaborate shopSchema "Order" .anything).value (by decide +kernel)

end Sample

namespace Path

open Sample

/-- From an order to all that its customer ordered: the path leaves it open that `orders` is a
list. -/
theorem elaborate_canonical_shop :
    parse "customer<Customer>.orders.total" = .ok shopPath ∧
      shopPath.elaborate shopSchema "Order" .anything = .ok shopSteps ∧
      dotted (shopSteps.map (·.render)) = "customer<Customer>.orders[list].total" ∧
      ∃ path', parse "customer<Customer>.orders[list].total" = .ok path' ∧
        path'.elaborate shopSchema "Order" .anything = .ok shopSteps := by
  have hpath : parse "customer<Customer>.orders.total" = .ok shopPath := Except.eq_ok_value _
  have hsteps : shopPath.elaborate shopSchema "Order" .anything = .ok shopSteps :=
    Except.eq_ok_value _
  have htext : dotted (shopSteps.map (·.render)) = "customer<Customer>.orders[list].total" := by
    decide +kernel
  obtain ⟨-, -, -, -, -, path', hpath', hsteps'⟩ := elaborate_canonical hpath hsteps
  rw [htext] at hpath'
  exact ⟨hpath, hsteps, htext, path', hpath', hsteps'⟩

end Path

end IndexSync
