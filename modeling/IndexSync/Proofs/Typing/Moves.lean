import IndexSync.Proofs.Mapping.Tracing
import IndexSync.Proofs.Path.Elaborate
import IndexSync.Proofs.Typing.Values
import IndexSync.Proofs.Walk.Nodes

/-!
# Moves of declared types

- `Move.Takes`, `movesTake` — a move, or several, from values of one type to values of
  another; an object of a subtype will do wherever a property is read.
- `Move.Takes.safe`, `Move.Takes.conforms` — a move does not go wrong at a value of the
  type that it takes, and leads to values of the type that it gives.
- `takes_of_elaborateSteps`, `exists_takes_of_backlinkTo` — elaborated paths and the
  backlinks made of them.
-/

namespace IndexSync

variable {m schema : Schema}

/-! ## Typing -/

/-- A move makes values of one type of the values of another. -/
inductive Move.Takes (m : Schema) : Move → PropertyType → PropertyType → Prop
  | read {type owner : TypeName} {name : String} {p : PropertyDef} : m.fits type owner = true →
      m.property? owner name = some p → Takes m (.read name) (.object type) p.type
  | extract {e : Extractor} {type element : PropertyType} : type.element? e = some element →
      Takes m (.extract e) type element
  | cast {type target : TypeName} : Takes m (.cast target) (.object type) (.object target)
  | land {type static : TypeName} : m.fits type static = true →
      Takes m (.land static) (.object type) (.object static)

/-- Moves one after another make values of one type of the values of another. -/
def movesTake (m : Schema) : List Move → PropertyType → PropertyType → Prop
  | [], type, result => type = result
  | move :: ms, type, result => ∃ mid, move.Takes m type mid ∧ movesTake m ms mid result

theorem movesTake_append {ms ns : List Move} {type result : PropertyType} :
    movesTake m (ms ++ ns) type result ↔
      ∃ mid, movesTake m ms type mid ∧ movesTake m ns mid result := by
  induction ms generalizing type with
  | nil => simp [movesTake]
  | cons move ms ih =>
      simp only [List.cons_append, movesTake, ih]
      constructor
      · rintro ⟨next, hnext, mid, hms, hns⟩
        exact ⟨mid, ⟨next, hnext, hms⟩, hns⟩
      · rintro ⟨mid, ⟨next, hnext, hms⟩, hns⟩
        exact ⟨next, hnext, mid, hms, hns⟩

/-- Where objects of a type will do, so will those of a subtype. -/
theorem movesTake_of_fits (hm : m.Coherent) {ms : List Move} {sub type : TypeName}
    {result : PropertyType} (hne : ms ≠ []) (h : movesTake m ms (.object type) result)
    (hfits : m.fits sub type = true) : movesTake m ms (.object sub) result := by
  cases ms with
  | nil => exact absurd rfl hne
  | cons move ms =>
      obtain ⟨mid, hmove, hrest⟩ := h
      refine ⟨mid, ?_, hrest⟩
      cases hmove with
      | read howner hp => exact .read (hm.fits_trans hfits howner) hp
      | extract helement => cases helement
      | cast => exact .cast
      | land hstatic => exact .land (hm.fits_trans hfits hstatic)

/-! ## Moves of the right type do not go wrong -/

section

variable {s : ObjectStore schema} {v w : Value} {type result : PropertyType}
  (hs : s.Conforms) (hm : schema.Coherent) (hagree : schema.Agrees)
include hs hm hagree

theorem Move.Takes.safe {move : Move} (h : move.Takes schema type result)
    (hv : v.Conforms s type) (hnull : v.isNull = false) : move.Safe s v := by
  cases h with
  | read hfits hp =>
      obtain ⟨o, rfl, ho⟩ := hv.exists_ref hnull
      obtain ⟨w, hw, -⟩ := hs.exists_read hm hagree (ho.of_fits hm hfits) hp
      exact ⟨o, w, rfl, hw⟩
  | extract helement =>
      obtain ⟨items, hitems, -⟩ := hv.exists_elements helement
      exact ⟨items, hitems⟩
  | cast =>
      obtain ⟨o, rfl, concrete, hconcrete, -⟩ := hv.exists_ref hnull
      exact ⟨o, concrete, rfl, hconcrete⟩
  | land hfits =>
      obtain ⟨o, rfl, ho⟩ := hv.exists_ref hnull
      exact ⟨o, rfl, ho.of_fits hm hfits⟩

theorem Move.Takes.conforms {move : Move} (h : move.Takes schema type result)
    (hv : v.Conforms s type) (hlead : move.Leads s v w) :
    w.Conforms s result ∧ w.isNull = false := by
  cases h with
  | read hfits hp =>
      obtain ⟨o, rfl, hread, hw⟩ := hlead
      obtain ⟨o', heq, ho⟩ := hv.exists_ref rfl
      cases heq
      obtain ⟨w', hw', hconforms⟩ := hs.exists_read hm hagree (ho.of_fits hm hfits) hp
      cases hread.symm.trans hw'
      exact ⟨hconforms, hw⟩
  | extract helement =>
      obtain ⟨items, hitems, hmem, hw⟩ := hlead
      obtain ⟨items', hitems', hall⟩ := hv.exists_elements helement
      cases hitems.symm.trans hitems'
      exact ⟨hall w hmem, hw⟩
  | cast =>
      obtain ⟨o, rfl, ho, rfl⟩ := hlead
      exact ⟨.ref ho, rfl⟩
  | land =>
      obtain ⟨o, rfl, ho, rfl⟩ := hlead
      exact ⟨.ref ho, rfl⟩

theorem conforms_of_movesLead {ms : List Move} (h : movesTake schema ms type result)
    (hv : v.Conforms s type) (hnull : v.isNull = false) (hlead : movesLead s ms v w) :
    w.Conforms s result ∧ w.isNull = false := by
  induction ms generalizing type v with
  | nil =>
      cases h
      cases hlead
      exact ⟨hv, hnull⟩
  | cons move ms ih =>
      obtain ⟨mid, hmove, hrest⟩ := h
      obtain ⟨u, hu, hlead⟩ := hlead
      obtain ⟨hconforms, hu⟩ := hmove.conforms hs hm hagree hv hu
      exact ih hrest hconforms hu hlead

/-- On the way along moves of the right type, the next one does not go wrong. -/
theorem safe_of_movesLead {ms ns : List Move} {move : Move} (hway : ms ++ [move] <+: ns)
    (h : movesTake schema ns type result) (hv : v.Conforms s type) (hnull : v.isNull = false)
    (hlead : movesLead s ms v w) : move.Safe s w := by
  obtain ⟨rest, rfl⟩ := hway
  rw [List.append_assoc, movesTake_append] at h
  obtain ⟨mid, hms, next, hmove, -⟩ := h
  obtain ⟨hw, hwnull⟩ := conforms_of_movesLead hs hm hagree hms hv hnull hlead
  exact hmove.safe hs hm hagree hw hwnull

end

/-! ## Elaborated paths -/

namespace Path

theorem takes_of_openWritten {name : String} {written : List (Option Extractor)}
    {type element : PropertyType} {es : List Extractor}
    (h : openWritten name type written = .ok (es, element)) :
    movesTake m (es.map .extract) type element := by
  induction written generalizing type es with
  | nil =>
      cases h
      rfl
  | cons e? written ih =>
      obtain ⟨e, mid, es', -, hmid, hrest, rfl⟩ := openWritten_cons_eq_ok_iff.mp h
      exact ⟨mid, .extract hmid, ih hrest⟩

theorem takes_of_openUsual {type : PropertyType} :
    movesTake m ((openUsual type).1.map .extract) type (openUsual type).2 := by
  induction type with
  | scalar | object => rfl
  | list e ih | set e ih | array e ih | optional e ih => exact ⟨e, .extract rfl, ih⟩
  | map k v _ ih => exact ⟨v, .extract rfl, ih⟩

theorem takes_of_narrow {type element : PropertyType} {cast : Option TypeName}
    (h : narrow m type cast = .ok element) :
    movesTake m (cast.toList.map .cast) type element := by
  cases cast with
  | none =>
      cases h
      rfl
  | some target =>
      cases type with
      | object declared =>
          simp only [narrow] at h
          split at h
          · cases h
          · split at h
            · cases h
            · cases h
              exact ⟨_, .cast, rfl⟩
      | _ => cases h

theorem takes_of_elaborateStep (hm : m.Coherent) {owner : TypeName} {unwrapped : Bool}
    {part : PathPart} {step : TypedStep} (h : elaborateStep m owner unwrapped part = .ok step) :
    movesTake m step.moves (.object owner) step.element := by
  obtain ⟨p, written, opened, implied, inner, element, hp, hwritten, hopening, hnarrow, -, rfl⟩ :=
    elaborateStep_eq_ok_iff.mp h
  have hread : (Move.read part.property).Takes m (.object owner) p.type :=
    .read (hm.fits_refl (Schema.declares_of_property? hp)) hp
  have himplied : movesTake m (implied.map .extract) opened inner := by
    split at hopening
    · obtain ⟨rfl, rfl⟩ := Prod.mk.inj hopening
      exact takes_of_openUsual
    · obtain ⟨rfl, rfl⟩ := Prod.mk.inj hopening
      rfl
  refine ⟨p.type, hread, ?_⟩
  show movesTake m ((written ++ implied).map .extract ++ part.cast.toList.map .cast) p.type element
  rw [movesTake_append, List.map_append]
  refine ⟨inner, ?_, takes_of_narrow hnarrow⟩
  rw [movesTake_append]
  exact ⟨opened, takes_of_openWritten hwritten, himplied⟩

/-- The steps of a path to objects lead from objects of its owner to objects of the type
that it ends at. -/
theorem takes_of_elaborateSteps (hm : m.Coherent) {parts : List PathPart} {owner : TypeName}
    {steps : List TypedStep} (h : elaborateSteps m .objects owner parts = .ok steps) :
    movesTake m (steps.flatMap (·.moves)) (.object owner) (.object (endOf owner steps)) := by
  induction parts generalizing owner steps with
  | nil =>
      cases h
      rfl
  | cons part rest ih =>
      rcases elaborateSteps_cons_eq_ok_iff.mp h with
        ⟨step, rfl, hstep, hobjects, rfl⟩ | ⟨step, target, steps', -, hstep, htarget, hsteps, rfl⟩
      · obtain ⟨target, htarget⟩ := Option.isSome_iff_exists.mp (hobjects rfl)
        have hend : PropertyType.object (endOf owner [step]) = step.element := by
          cases helement : step.element <;> rw [helement] at htarget <;> cases htarget
          simp [endOf, helement, PropertyType.target?]
        rw [List.flatMap_singleton, hend]
        exact takes_of_elaborateStep hm hstep
      · have hend : endOf owner (step :: steps') = endOf target steps' := by
          by_cases hempty : steps' = []
          · subst hempty
            simp [endOf, htarget, PropertyType.target?]
          · exact endOf_cons_of_ne_nil hempty (target?_isSome_of_elaborateSteps hsteps)
        rw [List.flatMap_cons, movesTake_append, hend]
        refine ⟨.object target, ?_, ih hsteps⟩
        rw [← htarget]
        exact takes_of_elaborateStep hm hstep

end Path

/-! ## Backlinks -/

/-- Past its first cast, a backlink leads from objects that its path starts at to
objects that it lands on. -/
theorem exists_takes_of_backlinkTo (hm : m.Coherent) {start required : TypeName} {path : Path}
    {cast : Option TypeName} {link : Backlink}
    (h : backlinkTo m start path required cast = .ok link) :
    ∃ ms, ms ≠ [] ∧ link.moves = cast.toList.map .cast ++ ms ∧
      movesTake m ms (.object start) (.object link.land) := by
  obtain ⟨steps, hsteps, hlink⟩ := backlinkTo_cases h
  have htake := Path.takes_of_elaborateSteps hm hsteps
  rcases hlink with ⟨hfits, rfl⟩ | ⟨hfits, rfl⟩
  · have hreached : m.fits (endOf start steps) (endOf start steps) = true :=
      hm.fits_refl (hm.declares_left hfits)
    refine ⟨steps.flatMap (·.moves) ++ [.land (endOf start steps)], by simp, ?_, ?_⟩
    · simp [Backlink.moves]
    · rw [movesTake_append]
      exact ⟨_, htake, _, .land hreached, rfl⟩
  · have hrequired : m.fits required required = true :=
      hm.fits_refl (hm.declares_left hfits)
    refine ⟨steps.flatMap (·.moves) ++ [.cast required, .land required], by simp, ?_, ?_⟩
    · simp [Backlink.moves]
    · rw [movesTake_append]
      exact ⟨_, htake, _, .cast, _, .land hrequired, rfl⟩

/-- A backlink over an association leads from objects that the association leads to, and
from those that its trigger starts at. -/
theorem takes_of_linkAlong (hm : m.Coherent) {owner target : TypeName} {names : String}
    {side : FarSide} {link : Backlink} (h : linkAlong m owner names target side = .ok link) :
    movesTake m link.moves (.object target) (.object link.land) ∧
      movesTake m link.moves (.object (link.startCast.getD target)) (.object link.land) := by
  obtain ⟨cast, hcast, h⟩ := Except.bind_eq_ok.mp h
  have hback := Except.mapError_eq_ok.mp h
  obtain ⟨ms, hne, hmoves, htake⟩ := exists_takes_of_backlinkTo hm hback
  obtain ⟨hstart, -⟩ := fits_of_backlinkTo hm hback
  rw [hmoves, hstart]
  rcases startCastFor_cases hcast with ⟨hfits, rfl⟩ | ⟨-, rfl⟩
  · have htarget := movesTake_of_fits hm hne htake hfits
    exact ⟨htarget, htarget⟩
  · exact ⟨⟨_, .cast, htake⟩, ⟨_, .cast, htake⟩⟩

end IndexSync
