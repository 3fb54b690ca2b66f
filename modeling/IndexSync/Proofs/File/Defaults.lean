import Mathlib.Logic.Relation
import IndexSync.File.Read

/-!
# Defaults left out

A member that has a default may be left out of a file, and counts as if it were written.

- `Json.Format` — what a reader looks at: the members of an object, with their defaults,
  and the elements of a list.
- `Json.Format.Omits` — one document leaves out a default that another one spells out, at
  any depth.
- `Json.Format.RespectedBy` — a reader gives the same for both; one lemma for lists and one
  for each way to read a member (`Omits.required?_eq`, `Omits.defaulted?_eq`), these from
  the ways in which a member of both documents may differ (`Omits.single?_cases`).
- `MappingSource.respected_ofJson?`, `MappingSource.isWithinLimits_eq` — so it is with
  mapping files, and with the limits on what they hold.
-/

namespace IndexSync

open Json
open Relation (EqvGen)

namespace Json

/-- What is looked at in a document. -/
inductive Format where
  /-- The document as a whole. -/
  | whole
  | list (element : Format)
  /-- Members by name, with the defaults of those that may be left out. -/
  | object (fields : List (String × Option Json × Format))

namespace Format

/-- The second document leaves out a member that is spelled out in the first one, with its
default, and is the same in everything else. -/
inductive Omits : Format → Json → Json → Prop
  | here {fields : List (String × Option Json × Format)} {name : String} {default : Json}
      {format : Format} {before after : Members} :
      fields.lookup name = some (some default, format) → (∀ m ∈ before ++ after, m.1 ≠ name) →
      Omits (object fields) (.object (before ++ (name, default) :: after))
        (.object (before ++ after))
  | member {fields : List (String × Option Json × Format)} {name : String}
      {default? : Option Json} {format : Format} {before after : Members} {j j' : Json} :
      fields.lookup name = some (default?, format) → Omits format j j' →
      Omits (object fields) (.object (before ++ (name, j) :: after))
        (.object (before ++ (name, j') :: after))
  | element {format : Format} {before after : List Json} {j j' : Json} : Omits format j j' →
      Omits (list format) (.array (before ++ j :: after)) (.array (before ++ j' :: after))

/-- A reader that makes no difference between defaults left out and spelled out. -/
def RespectedBy {α : Type} (format : Format) (read : Json → Option α) : Prop :=
  ∀ j j', format.Omits j j' → read j = read j'

variable {α : Type} {read : Json → Option α} {format : Format}

theorem respected_whole : whole.RespectedBy read := by
  intro j j' h
  cases h

theorem RespectedBy.list (h : format.RespectedBy read) : format.list.RespectedBy (list? read) := by
  rintro _ _ ⟨⟩
  rename_i hj
  show List.mapM read _ = List.mapM read _
  simp only [List.mapM_append, List.mapM_cons, h _ _ hj]

/-! ## Members -/

theorem single?_append_cons_of_ne {before after : Members} {m : String × Json} {name : String}
    (h : m.1 ≠ name) :
    Members.single? (before ++ m :: after) name = Members.single? (before ++ after) name := by
  unfold Members.single?
  rw [List.filter_append, List.filter_append, List.filter_cons_of_neg (by simpa using h)]

theorem single?_append_cons_of_fresh {before after : Members} {name : String} (j : Json)
    (h : ∀ m ∈ before ++ after, m.1 ≠ name) :
    Members.single? (before ++ (name, j) :: after) name = some (some j) ∧
      Members.single? (before ++ after) name = some none := by
  have hnone : (before ++ after).filter (fun m => m.1 = name) = [] := by
    exact List.filter_eq_nil_iff.mpr fun m hm => by simpa using h m hm
  obtain ⟨hbefore, hafter⟩ := List.append_eq_nil_iff.mp ((List.filter_append ..).symm.trans hnone)
  unfold Members.single?
  rw [hnone, List.filter_append, List.filter_cons_of_pos (by simp), hbefore, hafter]
  exact ⟨rfl, rfl⟩

/-- A member that stands where another one of the same name stood is as single as that. -/
theorem single?_append_cons_self (before after : Members) (name : String) (j j' : Json) :
    (Members.single? (before ++ (name, j) :: after) name = some (some j) ∧
      Members.single? (before ++ (name, j') :: after) name = some (some j')) ∨
    Members.single? (before ++ (name, j) :: after) name = none ∧
      Members.single? (before ++ (name, j') :: after) name = none := by
  unfold Members.single?
  simp only [List.filter_append, List.filter_cons, decide_true, if_true]
  cases hbefore : before.filter fun m => m.1 = name with
  | nil =>
      cases hafter : after.filter fun m => m.1 = name with
      | nil => exact .inl ⟨rfl, rfl⟩
      | cons m rest => exact .inr ⟨rfl, rfl⟩
  | cons m rest =>
      refine .inr ⟨?_, ?_⟩ <;> cases rest <;> rfl

namespace Omits

variable {fields : List (String × Option Json × Format)} {ms ms' : Members} {name : String}
  (h : Omits (object fields) (.object ms) (.object ms'))
include h

/-- A member that is known stands alike in both documents; or it has its default, and is
left out; or what stands in it leaves out a default. -/
theorem single?_cases {default? : Option Json}
    (hfield : fields.lookup name = some (default?, format)) :
    ms.single? name = ms'.single? name ∨
      (∃ default, default? = some default ∧ ms.single? name = some (some default) ∧
        ms'.single? name = some none) ∨
      ∃ j j', format.Omits j j' ∧ ms.single? name = some (some j) ∧
        ms'.single? name = some (some j') := by
  cases h with
  | @here _ name' default format' before after hdefault hfresh =>
      by_cases hne : name' = name
      · subst hne
        cases hfield.symm.trans hdefault
        exact .inr (.inl ⟨default, rfl, single?_append_cons_of_fresh default hfresh⟩)
      · exact .inl (single?_append_cons_of_ne hne)
  | @member _ name' default? format' before after j j' hmember hj =>
      by_cases hne : name' = name
      · subst hne
        cases hfield.symm.trans hmember
        rcases single?_append_cons_self before after name' j j' with hsingle | ⟨hnone, hnone'⟩
        · exact .inr (.inr ⟨j, j', hj, hsingle⟩)
        · exact .inl (hnone.trans hnone'.symm)
      · rw [single?_append_cons_of_ne hne, single?_append_cons_of_ne hne]
        exact .inl rfl

/-- A member that must be there is read alike. -/
theorem required?_eq (hfield : fields.lookup name = some (none, format))
    (hread : format.RespectedBy read) : ms.required? name read = ms'.required? name read := by
  unfold Members.required?
  rcases h.single?_cases hfield with heq | ⟨_, ⟨⟩, -⟩ | ⟨j, j', hj, hs, hs'⟩
  · rw [heq]
  · rw [hs, hs']
    exact hread j j' hj

/-- A member that may be left out is read alike, if the default is read as that. -/
theorem defaulted?_eq {default : Json} {a : α}
    (hfield : fields.lookup name = some (some default, format))
    (hdefault : read default = some a) (hread : format.RespectedBy read) :
    ms.defaulted? name a read = ms'.defaulted? name a read := by
  unfold Members.defaulted?
  rcases h.single?_cases hfield with heq | ⟨_, ⟨⟩, hs, hs'⟩ | ⟨j, j', hj, hs, hs'⟩
  · rw [heq]
  · rw [hs, hs']
    exact hdefault
  · rw [hs, hs']
    exact hread j j' hj

end Omits

/-- Readers of objects, by their members. -/
theorem respected_object {fields : List (String × Option Json × Format)}
    {body : Members → Option α}
    (h : ∀ ms ms', Omits (object fields) (.object ms) (.object ms') → body ms = body ms') :
    (object fields).RespectedBy fun j => j.asObject? >>= body := by
  intro j j' hj
  cases hj with
  | here hdefault hfresh => exact h _ _ (.here hdefault hfresh)
  | member hmember hj => exact h _ _ (.member hmember hj)

/-! ## Several defaults -/

section

variable {fields : List (String × Option Json × Format)} {name : String}

/-- A member that has its default is left out, and then others. -/
theorem eqvGen_here {default : Json} (before : Members) {after : Members} {j : Json}
    (hdefault : fields.lookup name = some (some default, format))
    (hfresh : ∀ m ∈ before ++ after, m.1 ≠ name)
    (h : EqvGen (object fields).Omits (.object (before ++ after)) j) :
    EqvGen (object fields).Omits (.object (before ++ (name, default) :: after)) j :=
  .trans _ _ _ (.rel _ _ (.here hdefault hfresh)) h

/-- What holds of one default holds of several. -/
theorem eqvGen_map {format' : Format} {f : Json → Json}
    (hf : ∀ j j', format.Omits j j' → format'.Omits (f j) (f j')) {j j' : Json}
    (h : EqvGen format.Omits j j') : EqvGen format'.Omits (f j) (f j') := by
  induction h with
  | rel j j' h => exact .rel _ _ (hf j j' h)
  | refl j => exact .refl _
  | symm j j' _ ih => exact .symm _ _ ih
  | trans j j' j'' _ _ ih ih' => exact .trans _ _ _ ih ih'

theorem eqvGen_member {default? : Option Json} (before : Members) {after : Members} {j j' : Json}
    (hfield : fields.lookup name = some (default?, format)) (h : EqvGen format.Omits j j') :
    EqvGen (object fields).Omits (.object (before ++ (name, j) :: after))
      (.object (before ++ (name, j') :: after)) :=
  eqvGen_map (f := fun j => .object (before ++ (name, j) :: after))
    (fun _ _ hj => .member hfield hj) h

theorem eqvGen_element (before : List Json) {after : List Json} {j j' : Json}
    (h : EqvGen format.Omits j j') :
    EqvGen format.list.Omits (.array (before ++ j :: after)) (.array (before ++ j' :: after)) :=
  eqvGen_map (f := fun j => .array (before ++ j :: after)) (fun _ _ hj => .element hj) h

end

end Format

end Json

open Json.Format

/-! ## Mapping files -/

def Dependency.format : Format :=
  .object [("type", none, .whole), ("inverse_path", none, .whole),
    ("used", some (.array []), .whole)]

def PartDecl.format : Format :=
  .object [("name", none, .whole), ("indexed", some (.bool false), .whole),
    ("read", some (.array []), .whole), ("embed", some (.array []), .whole),
    ("other", some (.array []), .list Dependency.format)]

def Declarations.format : Format :=
  .object [("types", some (.array []), .list PartDecl.format),
    ("inverses", some (.array []), .whole)]

/-- The members of a type; an `id_property` is looked at for entities only. -/
def TypeDef.format : Format :=
  .object [("name", none, .whole), ("kind", none, .whole), ("id_property", some .null, .whole),
    ("abstract", some (.bool false), .whole), ("supertypes", some (.array []), .whole),
    ("properties", some (.array []), .whole)]

def MappingSource.format : Format :=
  .object [("types", none, .list TypeDef.format),
    ("mapping", some Declarations.empty.toJson, Declarations.format)]

theorem list?_nil {α : Type} (read : Json → Option α) : list? read (.array []) = some [] := rfl

theorem strings?_nil : strings? (.array []) = some [] := rfl

theorem asBool?_false : asBool? (.bool false) = some false := rfl

theorem Dependency.respected_ofJson? : Dependency.format.RespectedBy Dependency.ofJson? := by
  refine respected_object fun ms ms' h => ?_
  rw [h.required?_eq rfl respected_whole, h.required?_eq rfl respected_whole,
    h.defaulted?_eq rfl strings?_nil respected_whole]

theorem PartDecl.respected_ofJson? : PartDecl.format.RespectedBy PartDecl.ofJson? := by
  refine respected_object fun ms ms' h => ?_
  rw [h.required?_eq rfl respected_whole, h.defaulted?_eq rfl asBool?_false respected_whole,
    h.defaulted?_eq rfl strings?_nil respected_whole,
    h.defaulted?_eq rfl strings?_nil respected_whole,
    h.defaulted?_eq rfl (list?_nil _) Dependency.respected_ofJson?.list]

theorem Declarations.respected_ofJson? :
    Declarations.format.RespectedBy Declarations.ofJson? := by
  refine respected_object fun ms ms' h => ?_
  rw [h.defaulted?_eq rfl (list?_nil _) PartDecl.respected_ofJson?.list,
    h.defaulted?_eq rfl (list?_nil _) respected_whole]

theorem TypeDef.respected_ofJson? : TypeDef.format.RespectedBy TypeDef.ofJson? := by
  refine respected_object fun ms ms' h => ?_
  have hnull : readIdProperty? .null = some none := rfl
  rw [h.required?_eq rfl respected_whole, h.required?_eq rfl respected_whole]
  rw [h.defaulted?_eq rfl hnull respected_whole, h.defaulted?_eq rfl asBool?_false respected_whole,
    h.defaulted?_eq rfl strings?_nil respected_whole,
    h.defaulted?_eq rfl (list?_nil _) respected_whole]

theorem MappingSource.respected_ofJson? :
    MappingSource.format.RespectedBy MappingSource.ofJson? := by
  refine respected_object fun ms ms' h => ?_
  have hempty : Declarations.ofJson? Declarations.empty.toJson = some .empty := rfl
  rw [h.required?_eq rfl TypeDef.respected_ofJson?.list,
    h.defaulted?_eq rfl hempty Declarations.respected_ofJson?]

/-! ## Limits -/

theorem mem_of_lookup_eq_some {β : Type} {l : List (String × β)} {name : String} {b : β}
    (h : l.lookup name = some b) : (name, b) ∈ l := by
  obtain ⟨l₁, l₂, rfl, -⟩ := List.lookup_eq_some_iff.mp h
  exact List.mem_append_right _ List.mem_cons_self

/-- A default that is left out lies within the limits. -/
theorem TypeDef.all_looseMembers_eq {j j' : Json} (h : TypeDef.format.Omits j j') :
    (TypeDef.looseMembers j).all (withinLimits 3) =
      (TypeDef.looseMembers j').all (withinLimits 3) := by
  cases h with
  | @member _ name default? format before after j j' hmember hj =>
      -- no member of a type is looked into
      have hwhole : format = .whole := by
        have hfields := mem_of_lookup_eq_some hmember
        simp only [List.mem_cons, Prod.mk.injEq, List.not_mem_nil, or_false] at hfields
        rcases hfields with h | h | h | h | h | h <;> exact h.2.2
      subst hwhole
      cases hj
  | @here _ name default format before after hmember hfresh =>
      have hlimits : name ∉ ["name", "abstract", "supertypes", "properties"] →
          withinLimits 3 default = true := by
        have hfields := mem_of_lookup_eq_some hmember
        simp only [List.mem_cons, Prod.mk.injEq, Option.some.injEq, reduceCtorEq, false_and,
          and_false, false_or, List.not_mem_nil, or_false] at hfields
        rcases hfields with ⟨rfl, rfl, -⟩ | ⟨rfl, rfl, -⟩ | ⟨rfl, rfl, -⟩ | ⟨rfl, rfl, -⟩ <;>
          decide +kernel
      show (((before ++ (name, default) :: after).filter _).map _).all _ =
        (((before ++ after).filter _).map _).all _
      rw [List.filter_append, List.filter_append, List.filter_cons]
      split
      · rename_i hloose
        simp [hlimits (of_decide_eq_true hloose)]
      · rfl

theorem field?_append_cons_of_ne {before after : Members} {m : String × Json} {name : String}
    (h : m.1 ≠ name) :
    (Json.object (before ++ m :: after)).field? name =
      (Json.object (before ++ after)).field? name := by
  show (before ++ m :: after).reverse.lookup name = (before ++ after).reverse.lookup name
  have hskip : (m :: before.reverse).lookup name = before.reverse.lookup name := by
    rw [List.lookup_cons, beq_false_of_ne (Ne.symm h)]
  simp [List.lookup_append, hskip]

theorem field?_append_cons_self (before after : Members) (name : String) (j : Json) :
    (Json.object (before ++ (name, j) :: after)).field? name =
      (after.reverse.lookup name).or (some j) := by
  show (before ++ (name, j) :: after).reverse.lookup name = _
  simp [List.lookup_append]

theorem MappingSource.isWithinLimits_eq {j j' : Json} (h : MappingSource.format.Omits j j') :
    MappingSource.isWithinLimits j = MappingSource.isWithinLimits j' := by
  unfold MappingSource.isWithinLimits
  cases h with
  | @here _ name default format before after hmember hfresh =>
      have hne : name ≠ "types" := by
        rintro rfl
        cases hmember
      rw [field?_append_cons_of_ne hne]
  | @member _ name default? format before after j j' hmember hj =>
      by_cases hne : name = "types"
      · subst hne
        rw [field?_append_cons_self, field?_append_cons_self]
        cases after.reverse.lookup "types" with
        | some last => rfl
        | none =>
            cases hmember
            cases hj with
            | @element _ before after d d' hd =>
                show (before ++ d :: after).all _ = (before ++ d' :: after).all _
                simp only [List.all_append, List.all_cons, TypeDef.all_looseMembers_eq hd]
      · rw [field?_append_cons_of_ne hne, field?_append_cons_of_ne hne]

/-- Documents that differ in defaults left out alone are read alike. -/
theorem MappingSource.eq_of_eqvGen {j j' : Json}
    (h : EqvGen MappingSource.format.Omits j j') :
    MappingSource.ofJson? j = MappingSource.ofJson? j' ∧
      MappingSource.isWithinLimits j = MappingSource.isWithinLimits j' := by
  induction h with
  | rel j j' h => exact ⟨MappingSource.respected_ofJson? j j' h, MappingSource.isWithinLimits_eq h⟩
  | refl j => exact ⟨rfl, rfl⟩
  | symm j j' _ ih => exact ⟨ih.1.symm, ih.2.symm⟩
  | trans j j' j'' _ _ ih ih' => exact ⟨ih.1.trans ih'.1, ih.2.trans ih'.2⟩

end IndexSync
