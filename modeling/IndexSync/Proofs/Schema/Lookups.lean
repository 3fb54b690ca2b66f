import IndexSync.Proofs.Schema.Chains
import IndexSync.Proofs.Store.Reading
import IndexSync.Sample.Traders

/-!
# Which declaration a look-up finds

Properties and identifiers are looked up along a chain of supertypes: the first type with a
declaration of its own supplies it.

- `Supplies` — a type supplies its own declaration to another.
- `property?_eq_some_iff`, `idProperty?_eq_some_iff` — look-ups find what is supplied.
- `Supplies.not_below` — where subtypes come first in the chain, no subtype of the supplier
  has a declaration.
- `overridden_not_supplied` — so a declaration that is overridden is passed over, if direct
  supertypes are listed in a suitable order (`SpecificFirst`).
- `overridden_supplied` — without such an order it need not be.
-/

namespace IndexSync.Schema

/-! ## Suppliers -/

/-- The declaration of a type itself, inherited ones left out. -/
def declared (m : Schema) (own : TypeDef → Option α) (t : TypeName) : Option α :=
  (m.definition? t).bind own

/-- The first type of the chain with a declaration of its own. -/
def supplier? (m : Schema) (own : TypeDef → Option α) (t : TypeName) : Option TypeName :=
  (m.supertypes t).find? fun s => (m.declared own s).isSome

/-- What a look-up on `t` finds is the declaration `a` of `z`. -/
structure Supplies (m : Schema) (own : TypeDef → Option α) (t z : TypeName) (a : α) : Prop where
  first : m.supplier? own t = some z
  declared : m.declared own z = some a

/-- The declaration of a property by a type. -/
def ownProperty? (name : String) (d : TypeDef) : Option PropertyDef :=
  d.properties.find? fun p => p.name = name

section

variable {ds : List TypeDef} {m : Schema} {own : TypeDef → Option α} {t x y z : TypeName} {a : α}
  {name : String}

theorem findSome?_eq_bind {f : β → Option α} {l : List β} :
    l.findSome? f = (l.find? fun b => (f b).isSome).bind f := by
  induction l with
  | nil => rfl
  | cons b l ih =>
      rw [List.findSome?_cons, List.find?_cons]
      cases hb : f b with
      | none => exact ih
      | some a => simp [hb]

theorem findSome?_declared_eq_some_iff :
    (m.supertypes t).findSome? (m.declared own) = some a ↔ ∃ z, m.Supplies own t z a := by
  rw [findSome?_eq_bind, Option.bind_eq_some_iff]
  exact exists_congr fun z => ⟨fun ⟨hfirst, hown⟩ => ⟨hfirst, hown⟩, fun h => ⟨h.1, h.2⟩⟩

theorem exists_supplies (hx : x ∈ m.supertypes t) (hown : (m.declared own x).isSome = true) :
    ∃ z a, m.Supplies own t z a := by
  have hsome : (m.supplier? own t).isSome = true := List.find?_isSome.mpr ⟨x, hx, hown⟩
  obtain ⟨z, hz⟩ := Option.isSome_iff_exists.mp hsome
  have hzown : (m.declared own z).isSome = true :=
    List.find?_some (p := fun s => (m.declared own s).isSome) hz
  obtain ⟨a, ha⟩ := Option.isSome_iff_exists.mp hzown
  exact ⟨z, a, hz, ha⟩

/-- Where subtypes come first, whatever has a declaration is not below the supplier. -/
theorem Supplies.not_below (h : m.Supplies own t z a) (hchain : m.SubtypesFirst t)
    (hx : x ∈ m.supertypes t) (hown : (m.declared own x).isSome = true) : ¬ m.Below x z := by
  obtain ⟨-, earlier, later, hsplit, hnone⟩ := List.find?_eq_some_iff_append.mp h.first
  rw [SubtypesFirst, hsplit, List.pairwise_append, List.pairwise_cons] at hchain
  obtain ⟨-, ⟨hlater, -⟩, -⟩ := hchain
  rw [hsplit, List.mem_append, List.mem_cons] at hx
  rcases hx with hx | rfl | hx
  · -- nothing before the supplier has a declaration
    have hx := hnone x hx
    rw [hown] at hx
    cases hx
  · exact fun hbelow => hbelow.1 rfl
  · exact hlater x hx

/-! ## Identifiers and properties -/

theorem idProperty?_eq_some_iff :
    m.idProperty? t = some name ↔ ∃ z, m.Supplies TypeDef.idProperty? t z name :=
  findSome?_declared_eq_some_iff

theorem Lists.definition?_eq {zipped : List (TypeDef × List TypeName)} (hl : Lists ds m zipped) :
    m.definition? t = findDefinition? ds t := by
  have hdefinitions : m.types.map (·.definition) = ds := by
    rw [hl.types, List.map_map]
    exact hl.definitions
  rw [findDefinition?, ← hdefinitions, List.find?_map]
  rfl

theorem find?_addProperties {added : List PropertyDef} :
    ∀ {found : List PropertyDef}, (added.foldl
        (fun found p => if found.any (·.name = p.name) then found else found ++ [p]) found).find?
          (fun p => p.name = name) =
      (found.find? fun p => p.name = name).or (added.find? fun p => p.name = name) := by
  induction added with
  | nil => simp
  | cons q added ih =>
      intro found
      rw [List.foldl_cons, ih]
      by_cases hany : found.any (·.name = q.name) = true
      · rw [if_pos hany, List.find?_cons]
        by_cases hq : q.name = name
        · -- the name has been found, so that `q` is overridden
          rw [hq] at hany
          obtain ⟨p, hp⟩ := Option.isSome_iff_exists.mp (List.find?_isSome.mpr
            (List.any_eq_true.mp hany))
          simp [hp]
        · simp [hq]
      · rw [if_neg hany, List.find?_append, Option.or_assoc]
        by_cases hq : q.name = name <;> simp [hq]

/-- Along a chain the first declaration of a name holds. -/
theorem find?_inheritedProperties {chain : List TypeName} :
    (inheritedProperties ds chain).find? (fun p => p.name = name) =
      chain.findSome? fun s => (findDefinition? ds s).bind (ownProperty? name) := by
  rw [inheritedProperties]
  suffices go : ∀ found : List PropertyDef, ((chain.filterMap (findDefinition? ds)).foldl
      (fun found d => d.properties.foldl
        (fun found p => if found.any (·.name = p.name) then found else found ++ [p]) found)
          found).find? (fun p => p.name = name) =
      (found.find? fun p => p.name = name).or
        (chain.findSome? fun s => (findDefinition? ds s).bind (ownProperty? name)) from go []
  induction chain with
  | nil => simp
  | cons s chain ih =>
      intro found
      rw [List.filterMap_cons, List.findSome?_cons]
      cases findDefinition? ds s with
      | none => exact ih found
      | some d =>
          show List.find? _ (List.foldl _ _ (d :: _)) = _
          rw [List.foldl_cons, ih, find?_addProperties, Option.or_assoc, Option.bind_some,
            ownProperty?]
          cases d.properties.find? fun p => p.name = name <;> rfl

theorem property?_eq_some_iff (h : ofDefinitions ds = .ok m) {p : PropertyDef} :
    m.property? t name = some p ↔ ∃ z, m.Supplies (ownProperty? name) t z p := by
  obtain ⟨zipped, hl⟩ := lists_of_accepted h
  have hproperties : m.properties t = inheritedProperties ds (m.supertypes t) := by
    by_cases ht : m.declares t = true
    · exact hl.properties_eq ht
    · rw [declares, Option.not_isSome_iff_eq_none] at ht
      simp [properties, supertypes, ht, inheritedProperties]
  have hdeclared : m.declared (ownProperty? name) =
      fun s => (findDefinition? ds s).bind (ownProperty? name) := by
    funext s
    rw [declared, hl.definition?_eq]
  rw [property?, hproperties, find?_inheritedProperties, ← hdeclared]
  exact findSome?_declared_eq_some_iff

end

/-! ## Overridden declarations -/

/-- If direct supertypes are listed so that none brings in a subtype of what an earlier one
has brought in, subtypes come first in every chain.  Then no look-up, neither of a property
nor of the identifier that tells an object apart, finds the declaration of a type `y` if a
subtype of `y` in the chain has one too. -/
theorem overridden_not_supplied {ds : List TypeDef} {m : Schema} (h : ofDefinitions ds = .ok m)
    (hfirst : m.SpecificFirst ds) {t x y : TypeName} (hx : x ∈ m.supertypes t)
    (hbelow : m.Below x y) :
    (∀ before after, m.supertypes t = before ++ y :: after → x ∈ before) ∧
    (∀ name, (m.declared (ownProperty? name) x).isSome = true →
      ∃ z p, z ≠ y ∧ m.Supplies (ownProperty? name) t z p ∧ m.property? t name = some p) ∧
    ((m.declared TypeDef.idProperty? x).isSome = true →
      ∃ z name, z ≠ y ∧ m.Supplies TypeDef.idProperty? t z name ∧
        m.idProperty? t = some name ∧
        ∀ (s : ObjectStore m) (o : ObjectId), s.runtimeType o = .ok t →
          s.identity o = (s.read o name).map (Identity.of o)) := by
  have ht : m.declares t = true := (coherent_of_accepted h).declares_left (mem_supertypes.mp hx)
  obtain ⟨d, hd, rfl⟩ := List.mem_map.mp ((inherits_of_accepted h).declares_iff.mp ht)
  have hchain : m.SubtypesFirst d.name := (specificFirst_iff h).mp hfirst d hd
  refine ⟨?order, ?property, ?identity⟩
  case order =>
    intro before after hsplit
    rw [hsplit, List.mem_append, List.mem_cons] at hx
    rw [SubtypesFirst, hsplit, List.pairwise_append, List.pairwise_cons] at hchain
    obtain ⟨-, ⟨hafter, -⟩, -⟩ := hchain
    rcases hx with hx | hx | hx
    · exact hx
    · exact absurd hx hbelow.1
    · exact absurd hbelow (hafter x hx)
  case property =>
    intro name hown
    obtain ⟨z, p, hz⟩ := exists_supplies hx hown
    refine ⟨z, p, ?_, hz, (property?_eq_some_iff h).mpr ⟨z, hz⟩⟩
    rintro rfl
    exact hz.not_below hchain hx hown hbelow
  case identity =>
    intro hown
    obtain ⟨z, name, hz⟩ := exists_supplies hx hown
    have hid : m.idProperty? d.name = some name := idProperty?_eq_some_iff.mpr ⟨z, hz⟩
    refine ⟨z, name, ?_, hz, hid, fun s o ho => ObjectStore.identity_eq_of_idProperty? ho hid⟩
    rintro rfl
    exact hz.not_below hchain hx hown hbelow

open Sample

theorem overridden_not_supplied_agents :
    ofDefinitions agents = .ok agentsSchema ∧ agentsSchema.SpecificFirst agents ∧
      agentsSchema.supertypes "Agent" = ["Agent", "Firm", "Party", "Guest"] ∧
      agentsSchema.Below "Firm" "Party" ∧
      (agentsSchema.declared (ownProperty? "label") "Party").isSome = true ∧
      (agentsSchema.declared TypeDef.idProperty? "Party").isSome = true ∧
      (∃ z p, z ≠ "Party" ∧ agentsSchema.Supplies (ownProperty? "label") "Agent" z p) ∧
      ∃ z name, z ≠ "Party" ∧ agentsSchema.Supplies TypeDef.idProperty? "Agent" z name := by
  have haccepted : ofDefinitions agents = .ok agentsSchema := Except.eq_ok_value _
  have hfirst : agentsSchema.SpecificFirst agents :=
    (specificFirst_iff haccepted).mpr (by decide +kernel)
  have hfirm : "Firm" ∈ agentsSchema.supertypes "Agent" := by decide +kernel
  have hbelow : agentsSchema.Below "Firm" "Party" := by decide +kernel
  obtain ⟨-, hproperty, hidentity⟩ := overridden_not_supplied haccepted hfirst hfirm hbelow
  obtain ⟨z, p, hz, hsupplies, -⟩ := hproperty "label" (by decide +kernel)
  obtain ⟨w, name, hw, hidsupplies, -⟩ := hidentity (by decide +kernel)
  exact ⟨haccepted, hfirst, by decide +kernel, hbelow, by decide +kernel, by decide +kernel,
    ⟨z, p, hz, hsupplies⟩, w, name, hw, hidsupplies⟩

/-- A trader is a person and a firm.  Persons are listed first and bring in parties, so the
label and the identifier of parties hold for traders, although firms override both. -/
theorem overridden_supplied :
    ofDefinitions traders = .ok tradersSchema ∧
      tradersSchema.supertypes "Trader" = ["Trader", "Person", "Party", "Firm"] ∧
      tradersSchema.Below "Firm" "Party" ∧
      tradersSchema.Supplies (ownProperty? "label") "Trader" "Party"
        { name := "label", type := .scalar .text } ∧
      tradersSchema.declared (ownProperty? "label") "Firm" =
        some { name := "label", type := .scalar .integer } ∧
      tradersSchema.property? "Trader" "label" =
        some { name := "label", type := .scalar .text } ∧
      tradersSchema.Supplies TypeDef.idProperty? "Trader" "Party" "code" ∧
      tradersSchema.declared TypeDef.idProperty? "Firm" = some "register" ∧
      (traded.runtimeType 1).toOption = some "Trader" ∧
      (traded.read 1 "register").toOption = some (.integer 7) ∧
      (traded.identity 1).toOption = some (.id (.text "C")) := by
  refine ⟨Except.eq_ok_value _, ?_⟩
  refine ⟨by decide +kernel, by decide +kernel, ⟨by decide +kernel, by decide +kernel⟩,
    by decide +kernel, by decide +kernel, ⟨by decide +kernel, by decide +kernel⟩,
    by decide +kernel, by decide +kernel, by decide +kernel, by decide +kernel⟩

end IndexSync.Schema
