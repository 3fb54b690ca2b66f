import IndexSync.Proofs.Store.Writes
import IndexSync.Sample.Boxes

/-!
# Appending to a property

An element is appended to what a property holds, whatever type is declared for it.  An unset
property is taken for a list.

- `read_of_set` — setting a property changes what is read there, and nothing else.
- `PropertyType.shapes` — the values that have the outermost shape of a type.
- `Appends` — a push that keeps the declared shape and adds its element.
- `push_fits_iff` — pushes do what the declaration asks for, unless the property is unset and
  not declared as a list.
- `push_unset` — then they leave a list where no list is declared.
-/

namespace IndexSync

/-- The value has the outermost shape of the type. -/
def PropertyType.shapes : PropertyType → Value → Bool
  | scalar .bool, .bool _ | scalar .integer, .integer _ | scalar .text, .text _
  | scalar .bytes, .bytes _ | object _, .ref _ | list _, .list _ | set _, .set _
  | array _, .array _ | optional _, .optional _ | map _ _, .map _ => true
  | _, _ => false

/-- Elements can be appended to the values of the type. -/
def PropertyType.isSequence : PropertyType → Bool
  | list _ | set _ | array _ => true
  | scalar _ | object _ | optional _ | map _ _ => false

/-- The value `v` is one of the type, and its elements are those of `old` with `element`
among them. -/
def PropertyType.Extends (type : PropertyType) (element old v : Value) : Prop :=
  type.shapes v = true ∧ ∃ e before items, type.usualExtractor? = some e ∧
    e.elements? old = some before ∧ e.elements? v = some items ∧
      before <+: items ∧ element ∈ items

namespace PropertyType

variable {type : PropertyType} {element old v : Value} {items : List Value}

theorem shapes_list_iff : type.shapes (.list items) = true ↔ ∃ e, type = .list e := by
  cases type with
  | scalar kind => cases kind <;> simp [shapes]
  | _ => simp [shapes]

/-- An element can be appended to a sequence, and that keeps its shape. -/
theorem exists_append?_of_isSequence (htype : type.isSequence = true)
    (hold : type.shapes old = true) (element : Value) :
    ∃ v, ObjectStore.append? element old = some v ∧ type.Extends element old v := by
  cases type with
  | list e =>
      cases old with
      | list items =>
          refine ⟨_, rfl, rfl, .list, items, _, rfl, rfl, rfl, ?_, ?_⟩
          · exact List.prefix_append items [element]
          · exact List.mem_append_right items (List.mem_singleton_self element)
      | _ => cases hold
  | set e =>
      cases old with
      | set items =>
          refine ⟨_, rfl, rfl, .set, items, _, rfl, rfl, rfl, ?_⟩
          by_cases hmem : element ∈ items
          · rw [if_pos hmem]
            exact ⟨List.prefix_rfl, hmem⟩
          · rw [if_neg hmem]
            exact ⟨List.prefix_append items [element],
              List.mem_append_right items (List.mem_singleton_self element)⟩
      | _ => cases hold
  | array e =>
      cases old with
      | array items =>
          refine ⟨_, rfl, rfl, .array, items, _, rfl, rfl, rfl, ?_, ?_⟩
          · exact List.prefix_append items [element]
          · exact List.mem_append_right items (List.mem_singleton_self element)
      | _ => cases hold
  | scalar | object | optional | map => cases htype

theorem extends_null_list (e : PropertyType) (element : Value) :
    (list e).Extends element .null (.list [element]) :=
  ⟨rfl, .list, [], _, rfl, rfl, rfl, List.nil_prefix, List.mem_singleton_self element⟩

/-- Nothing can be appended to a value that is not a sequence. -/
theorem append?_eq_none (htype : type.isSequence = false) (hold : type.shapes old = true)
    (element : Value) : ObjectStore.append? element old = none := by
  cases type with
  | list | set | array => cases htype
  | scalar kind => cases kind <;> cases old <;> first | rfl | cases hold
  | object | optional | map => cases old <;> first | rfl | cases hold

end PropertyType

namespace ObjectStore

variable {schema : Schema} {s s' : ObjectStore schema} {o : ObjectId} {type : TypeName}
  {name : String} {element current updated v : Value}

/-! ## What a push changes -/

theorem read_of_get? {stored : StoredObject} (h : s.get? o = some stored) (name : String) :
    s.read o name = (requireProperty schema stored.type name >>= fun _ =>
      pure (stored.properties.getD name .null)) := by
  rw [read, object, h]
  rfl

/-- A property that is set reads as its new value, and all else reads as before. -/
theorem read_of_set {old : Value} (h : s.set o name v = .ok (old, s')) (o' : ObjectId)
    (name' : String) :
    s'.read o' name' = if o' = o ∧ name' = name then .ok v else s.read o' name' := by
  obtain ⟨stored, hstored, hdeclared, -, rfl⟩ := set_eq_ok.mp h
  by_cases ho : o = o'
  · subst ho
    rw [read_of_get? ((get?_put _ o).trans (if_pos rfl)), read_of_get? hstored]
    simp only [Std.ExtTreeMap.getD_insert, Std.LawfulEqCmp.compare_eq_iff_eq, true_and]
    by_cases hname : name = name'
    · subst hname
      have hok : requireProperty schema stored.type name = .ok () :=
        requireProperty_eq_ok.mpr hdeclared
      rw [if_pos rfl, if_pos rfl, hok]
      rfl
    · rw [if_neg hname, if_neg (Ne.symm hname)]
  · rw [if_neg fun h => ho h.1.symm, read, read, object, object,
      (get?_put _ o').trans (if_neg ho)]

/-- The push succeeds, keeps the shape that `type` gives to the property, adds the element to
it, and changes nothing else. -/
def Appends (s : ObjectStore schema) (o : ObjectId) (name : String) (type : PropertyType)
    (element current : Value) : Prop :=
  ∃ s' v, s.push o name element = .ok s' ∧ s'.read o name = .ok v ∧
    type.Extends element current v ∧
      ∀ o' name', ¬ (o' = o ∧ name' = name) → s'.read o' name' = s.read o' name'

/-- The push fails and leaves the store as it was. -/
def Refuses (s : ObjectStore schema) (o : ObjectId) (name : String) (element : Value) : Prop :=
  ∃ e, s.push o name element = .error e ∧ s.after (.push o name element) = s

theorem exists_push (hread : s.read o name = .ok current)
    (happend : append? element current = some updated) :
    ∃ s', s.push o name element = .ok s' ∧ s'.read o name = .ok updated ∧
      ∀ o' name', ¬ (o' = o ∧ name' = name) → s'.read o' name' = s.read o' name' := by
  obtain ⟨stored, hstored, hdeclared, -⟩ := read_eq_ok.mp hread
  have hset : s.set o name updated = .ok (_, _) :=
    set_eq_ok.mpr ⟨stored, hstored, hdeclared, rfl, rfl⟩
  refine ⟨_, push_eq_ok.mpr ⟨current, updated, _, hread, happend, hset⟩, ?_, ?_⟩
  · rw [read_of_set hset, if_pos ⟨rfl, rfl⟩]
  · intro o' name' hother
    rw [read_of_set hset, if_neg hother]

theorem push_eq_error (hread : s.read o name = .ok current)
    (happend : append? element current = none) :
    s.push o name element = .error (.wrongContainer .list current.shape) := by
  rw [push, hread]
  simp only [bind, Except.bind, happend]

theorem appends_of_extends (hread : s.read o name = .ok current)
    (happend : append? element current = some v) {type : PropertyType}
    (hextends : type.Extends element current v) : s.Appends o name type element current := by
  obtain ⟨s', hpush, hread', hsame⟩ := exists_push hread happend
  exact ⟨s', v, hpush, hread', hextends, hsame⟩

theorem refuses_of_none (hread : s.read o name = .ok current)
    (happend : append? element current = none) : s.Refuses o name element := by
  have herror := push_eq_error hread happend
  exact ⟨_, herror, after_eq_of_error herror⟩

/-! ## Declared shapes -/

/-- An unset property becomes a list, which is no other sequence, and is not refused. -/
theorem list_of_fits_unset {type : PropertyType} (hread : s.read o name = .ok .null)
    (hsequence : type.isSequence = true → s.Appends o name type element .null)
    (hother : type.isSequence = false → s.Refuses o name element) : ∃ e, type = .list e := by
  have happend : append? element .null = some (.list [element]) := rfl
  obtain ⟨s', hpush, hread', -⟩ := exists_push hread happend
  by_cases htype : type.isSequence = true
  · obtain ⟨s'', v, hpush', hv, ⟨hshape, -⟩, -⟩ := hsequence htype
    cases hpush.symm.trans hpush'
    cases hread'.symm.trans hv
    exact PropertyType.shapes_list_iff.mp hshape
  · obtain ⟨e, herror, -⟩ := hother (Bool.eq_false_iff.mpr htype)
    cases hpush.symm.trans herror

/-- Pushes are what the declaration of a property asks for: a list, a set or an array gets
the element and keeps its shape, so that the usual extractor of the type takes the element
out again, and any other property refuses it.  This needs a property that holds a value
already or is declared as a list, and nothing less will do. -/
theorem push_fits_iff {p : PropertyDef} (ho : s.runtimeType o = .ok type)
    (hp : schema.property? type name = some p) (element : Value) :
    ∃ current, s.read o name = .ok current ∧
      (current = .null ∨ p.type.shapes current = true →
        (((p.type.isSequence = true → s.Appends o name p.type element current) ∧
          (p.type.isSequence = false → s.Refuses o name element)) ↔
            current ≠ .null ∨ ∃ e, p.type = .list e)) := by
  obtain ⟨current, hread⟩ := exists_read_of_property? ho (by rw [hp]; rfl)
  refine ⟨current, hread, fun hcurrent => ⟨?_, ?_⟩⟩
  · rintro ⟨hsequence, hother⟩
    by_cases hunset : current = .null
    · subst hunset
      exact .inr (list_of_fits_unset hread hsequence hother)
    · exact .inl hunset
  · intro hheld
    rcases hcurrent with rfl | hshape
    · obtain ⟨e, hlist⟩ : ∃ e, p.type = .list e := hheld.resolve_left (absurd rfl)
      rw [hlist]
      refine ⟨fun _ => ?_, nofun⟩
      exact appends_of_extends hread rfl (PropertyType.extends_null_list e element)
    · constructor
      · intro htype
        obtain ⟨v, happend, hextends⟩ :=
          PropertyType.exists_append?_of_isSequence htype hshape element
        exact appends_of_extends hread happend hextends
      · intro htype
        exact refuses_of_none hread (PropertyType.append?_eq_none htype hshape element)

open Sample

/-- A box that holds a tag gets another one. -/
theorem push_fits_iff_tagged :
    tagged.runtimeType 1 = .ok "Box" ∧
      boxesSchema.property? "Box" "tags" = some { name := "tags", type := .set (.scalar .text) } ∧
      tagged.Appends 1 "tags" (.set (.scalar .text)) (.text "blue") (.set [.text "red"]) := by
  have htype : tagged.runtimeType 1 = .ok "Box" := Except.eq_ok_of_toOption (by decide +kernel)
  have hp : boxesSchema.property? "Box" "tags" =
      some { name := "tags", type := .set (.scalar .text) } := by decide +kernel
  have hread : tagged.read 1 "tags" = .ok (.set [.text "red"]) :=
    Except.eq_ok_of_toOption (by decide +kernel)
  obtain ⟨current, hcurrent, hfits⟩ := push_fits_iff htype hp (.text "blue")
  cases hcurrent.symm.trans hread
  exact ⟨htype, hp, ((hfits (.inr rfl)).mpr (.inl nofun)).1 rfl⟩

/-- Of a box nothing is set.  What is pushed to its tags, a set, leaves a list there that the
extractor of sets does not take apart, and one more push to its weight, an integer, leaves a
list as well. -/
theorem push_unset :
    boxed.read 1 "tags" = .ok .null ∧ boxed.read 1 "weight" = .ok .null ∧
      boxesSchema.property? "Box" "tags" = some { name := "tags", type := .set (.scalar .text) } ∧
      boxesSchema.property? "Box" "weight" = some { name := "weight", type := .scalar .integer } ∧
      ∃ s' s'', boxed.push 1 "tags" (.text "red") = .ok s' ∧
        s'.read 1 "tags" = .ok (.list [.text "red"]) ∧
        Extractor.set.elements? (.list [.text "red"]) = none ∧
        boxed.push 1 "weight" (.integer 2) = .ok s'' ∧
        s''.read 1 "weight" = .ok (.list [.integer 2]) := by
  have htags : boxed.read 1 "tags" = .ok .null := Except.eq_ok_of_toOption (by decide +kernel)
  have hweight : boxed.read 1 "weight" = .ok .null :=
    Except.eq_ok_of_toOption (by decide +kernel)
  have hred : append? (.text "red") .null = some (.list [.text "red"]) := rfl
  have htwo : append? (.integer 2) .null = some (.list [.integer 2]) := rfl
  obtain ⟨s', hpush, hread, -⟩ := exists_push htags hred
  obtain ⟨s'', hpush', hread', -⟩ := exists_push hweight htwo
  exact ⟨htags, hweight, by decide +kernel, by decide +kernel, s', s'', hpush, hread, rfl,
    hpush', hread'⟩

end ObjectStore

end IndexSync
