import Mathlib.Data.List.Nodup
import Mathlib.Logic.Relation
import IndexSync.Mapping.Compile
import IndexSync.Proofs.Success

/-!
# Inheritance in an accepted schema

- `mem_chainOf_iff` — the chain of a type holds what it inherits from, over any
  number of steps, and itself.
- `Coherent` — what look-ups in an accepted schema give: fitting is reflexive on
  declared types and transitive, subtypes are the types that fit, and whatever
  fits a type has its properties.
- `coherent_of_accepted` — every accepted schema is coherent.
-/

namespace IndexSync.Schema

open Relation

/-! ## Chains of supertypes -/

/-- One step of inheritance. -/
def Extends (ds : List TypeDef) (t super : TypeName) : Prop :=
  ∃ d, findDefinition? ds t = some d ∧ super ∈ d.supertypes

/-- Every type of a chain is followed by its supertypes, unless it is one of
those `above`. -/
def ClosedBut (ds : List TypeDef) (above chain : List TypeName) : Prop :=
  ∀ t ∈ chain, t ∉ above → ∀ super, Extends ds t super → super ∈ chain

/-- No line of inheritance from the type goes on forever. -/
def Grounded (ds : List TypeDef) (t : TypeName) : Prop :=
  Acc (fun super sub => Extends ds sub super) t

/-- The supertypes of a type need not be in the chain while it is above. -/
theorem ClosedBut.enter {ds : List TypeDef} {above chain : List TypeName}
    (h : ClosedBut ds above chain) (name : TypeName) :
    ClosedBut ds (name :: above) (chain ++ [name]) := by
  intro t ht hta super hsuper
  rcases List.mem_append.mp ht with ht | ht
  · have habove : t ∉ above := fun h => hta (List.mem_cons_of_mem _ h)
    exact List.mem_append_left _ (h t ht habove super hsuper)
  · exact absurd (List.mem_singleton.mp ht ▸ List.mem_cons_self) hta

/-- Every type of a chain is grounded, unless it is one of those `above`. -/
def GroundedBut (ds : List TypeDef) (above chain : List TypeName) : Prop :=
  ∀ t ∈ chain, t ∉ above → Grounded ds t

/-- What following `names` makes of a chain. -/
structure Follows (ds : List TypeDef) (above chain names chain' : List TypeName) : Prop where
  keeps : chain <+: chain'
  adds : names ⊆ chain'
  outside : ∀ n ∈ names, n ∉ above
  inherits : ∀ t ∈ chain', t ∈ chain ∨ ∃ n ∈ names, ReflTransGen (Extends ds) n t
  defined : ∀ t ∈ chain', t ∈ chain ∨ (findDefinition? ds t).isSome
  nodup : chain.Nodup → chain'.Nodup
  closed : ClosedBut ds above chain → ClosedBut ds above chain'
  grounded : GroundedBut ds above chain → GroundedBut ds above chain'

theorem Follows.nil {ds : List TypeDef} {above chain : List TypeName} :
    Follows ds above chain [] chain where
  keeps := List.prefix_refl chain
  adds := by simp
  outside := by simp
  inherits := fun _ h => .inl h
  defined := fun _ h => .inl h
  nodup := id
  closed := id
  grounded := id

theorem Follows.cons {ds : List TypeDef} {above chain mid chain' : List TypeName} {n : TypeName}
    {names : List TypeName} (h : Follows ds above chain [n] mid)
    (h' : Follows ds above mid names chain') : Follows ds above chain (n :: names) chain' where
  keeps := h.keeps.trans h'.keeps
  adds := by
    intro t ht
    rcases List.mem_cons.mp ht with rfl | ht
    · exact h'.keeps.subset (h.adds List.mem_cons_self)
    · exact h'.adds ht
  outside := by
    intro t ht
    rcases List.mem_cons.mp ht with rfl | ht
    · exact h.outside t List.mem_cons_self
    · exact h'.outside t ht
  inherits := by
    intro t ht
    rcases h'.inherits t ht with ht | ⟨k, hk, hkt⟩
    · rcases h.inherits t ht with ht | ⟨k, hk, hkt⟩
      · exact .inl ht
      · exact .inr ⟨n, List.mem_cons_self, List.mem_singleton.mp hk ▸ hkt⟩
    · exact .inr ⟨k, List.mem_cons_of_mem _ hk, hkt⟩
  defined := by
    intro t ht
    rcases h'.defined t ht with ht | ht
    · exact h.defined t ht
    · exact .inr ht
  nodup := fun hc => h'.nodup (h.nodup hc)
  closed := fun hc => h'.closed (h.closed hc)
  grounded := fun hc => h'.grounded (h.grounded hc)

theorem Follows.foldlM {ds : List TypeDef} {above : List TypeName}
    {f : List TypeName → TypeName → Except DataError (List TypeName)}
    (hf : ∀ chain n chain', f chain n = .ok chain' → Follows ds above chain [n] chain') :
    ∀ {names chain chain'}, names.foldlM f chain = .ok chain' →
      Follows ds above chain names chain'
  | [], chain, chain', h => by
      cases List.foldlM_nil_eq_ok.mp h
      exact .nil
  | n :: names, chain, chain', h => by
      obtain ⟨mid, hmid, h⟩ := List.foldlM_cons_eq_ok.mp h
      exact (hf _ _ _ hmid).cons (Follows.foldlM hf h)

/-- A type that is there already adds nothing. -/
theorem Follows.of_mem {ds : List TypeDef} {above chain : List TypeName} {name : TypeName}
    (habove : name ∉ above) (hin : name ∈ chain) : Follows ds above chain [name] chain where
  keeps := List.prefix_refl chain
  adds := by simpa using hin
  outside := by simpa using habove
  inherits := fun _ h => .inl h
  defined := fun _ h => .inl h
  nodup := id
  closed := id
  grounded := id

/-- A new type comes first, then whatever its supertypes add.  All of these are
in the chain when the type itself stops being one of those above. -/
theorem Follows.descend {ds : List TypeDef} {above chain chain' : List TypeName} {name : TypeName}
    {d : TypeDef} (hd : findDefinition? ds name = some d) (habove : name ∉ above)
    (hnew : name ∉ chain)
    (hs : Follows ds (name :: above) (chain ++ [name]) d.supertypes chain') :
    Follows ds above chain [name] chain' where
  keeps := (List.prefix_append _ _).trans hs.keeps
  adds := List.Subset.trans (List.subset_append_right _ _) hs.keeps.subset
  outside := by simpa using habove
  inherits := by
    intro t ht
    rcases hs.inherits t ht with ht | ⟨n, hn, hnt⟩
    · rcases List.mem_append.mp ht with ht | ht
      · exact .inl ht
      · exact .inr ⟨name, by simp, List.mem_singleton.mp ht ▸ .refl⟩
    · exact .inr ⟨name, by simp, .head ⟨d, hd, hn⟩ hnt⟩
  defined := by
    intro t ht
    rcases hs.defined t ht with ht | ht
    · rcases List.mem_append.mp ht with ht | ht
      · exact .inl ht
      · rw [List.mem_singleton.mp ht, hd]
        exact .inr rfl
    · exact .inr ht
  nodup := by
    intro hc
    apply hs.nodup
    rw [← List.concat_eq_append]
    exact hc.concat hnew
  closed := by
    intro hc t ht hta super hsuper
    by_cases htn : t = name
    · obtain ⟨d', hd', hsd⟩ := hsuper
      rw [htn, hd] at hd'
      cases hd'
      exact hs.adds hsd
    · exact hs.closed (hc.enter name) t ht (by simp [htn, hta]) super hsuper
  grounded := by
    intro hc
    have hc' : GroundedBut ds (name :: above) (chain ++ [name]) := by
      intro t ht hta
      rcases List.mem_append.mp ht with ht | ht
      · exact hc t ht (fun h => hta (List.mem_cons_of_mem _ h))
      · exact absurd (List.mem_singleton.mp ht ▸ List.mem_cons_self) hta
    have hgrounded : GroundedBut ds (name :: above) chain' := hs.grounded hc'
    intro t ht hta
    by_cases htn : t = name
    · -- the supertypes of `name` are grounded, for following them met none of those above
      refine Acc.intro t ?_
      rintro super ⟨d', hd', hsd⟩
      rw [htn, hd] at hd'
      cases hd'
      exact hgrounded super (hs.adds hsd) (hs.outside super hsd)
    · exact hgrounded t ht (by simp [htn, hta])

theorem follows_extendChain {ds : List TypeDef} :
    ∀ {depth above chain name chain'}, extendChain ds depth above chain name = .ok chain' →
      Follows ds above chain [name] chain'
  | 0, _, _, _, _, h => by simp [extendChain] at h
  | depth + 1, above, chain, name, chain', h => by
      rw [extendChain] at h
      split at h
      · cases h
      · rename_i habove
        split at h
        · rename_i hin
          cases h
          exact .of_mem habove hin
        · rename_i hnew
          split at h
          · cases h
          · rename_i d hd
            exact .descend hd habove hnew (Follows.foldlM (fun _ _ _ h => follows_extendChain h) h)

theorem mem_chainOf_iff {ds : List TypeDef} {name t : TypeName} {chain : List TypeName}
    (h : chainOf ds name = .ok chain) :
    t ∈ chain ↔ ReflTransGen (Extends ds) name t := by
  have hf := follows_extendChain h
  constructor
  · intro ht
    rcases hf.inherits t ht with ht | ⟨n, hn, hnt⟩
    · cases ht
    · exact List.mem_singleton.mp hn ▸ hnt
  · intro ht
    have hc : ClosedBut ds [] chain := hf.closed (by intro t ht; cases ht)
    induction ht with
    | refl => exact hf.adds List.mem_cons_self
    | tail _ hst ih => exact hc _ ih (by simp) _ hst

theorem defined_of_mem_chainOf {ds : List TypeDef} {name t : TypeName} {chain : List TypeName}
    (h : chainOf ds name = .ok chain) (ht : t ∈ chain) : (findDefinition? ds t).isSome := by
  rcases (follows_extendChain h).defined t ht with ht | ht
  · cases ht
  · exact ht

/-! ## Distinct names -/

theorem firstRepeated_eq_none_iff {properties : List PropertyDef} :
    ∀ {seen : List String}, checkNames.firstRepeated seen properties = none ↔
      (properties.map (·.name)).Nodup ∧ ∀ p ∈ properties, p.name ∉ seen := by
  induction properties with
  | nil => simp [checkNames.firstRepeated]
  | cons p properties ih =>
      intro seen
      rw [checkNames.firstRepeated]
      by_cases hp : p.name ∈ seen
      · rw [if_pos hp]
        refine iff_of_false (by simp) ?_
        rintro ⟨-, hfresh⟩
        exact hfresh p List.mem_cons_self hp
      · rw [if_neg hp, ih]
        simp only [List.map_cons, List.nodup_cons, List.mem_cons, List.mem_map]
        grind

/-- Definitions pass the check when no name occurs twice, among the types or
among the properties of one type. -/
theorem checkNames_eq_ok_iff {ds : List TypeDef} :
    ∀ {earlier : List TypeName}, checkNames earlier ds = .ok () ↔
      (ds.map (·.name)).Nodup ∧ (∀ d ∈ ds, d.name ∉ earlier) ∧
        ∀ d ∈ ds, (d.properties.map (·.name)).Nodup := by
  induction ds with
  | nil => simp [checkNames]
  | cons d ds ih =>
      intro earlier
      have hproperties : checkNames.firstRepeated [] d.properties = none ↔
          (d.properties.map (·.name)).Nodup := by
        rw [firstRepeated_eq_none_iff]
        simp
      rw [checkNames]
      split
      · rename_i property hrepeated
        refine iff_of_false (by simp) ?_
        rintro ⟨-, -, h⟩
        rw [hproperties.mpr (h d List.mem_cons_self)] at hrepeated
        cases hrepeated
      · rename_i hnone
        by_cases hd : d.name ∈ earlier
        · rw [if_pos hd]
          refine iff_of_false (by simp) ?_
          rintro ⟨-, hfresh, -⟩
          exact hfresh d List.mem_cons_self hd
        · rw [if_neg hd, ih]
          have hdp := hproperties.mp hnone
          simp only [List.map_cons, List.nodup_cons, List.mem_cons, List.mem_map]
          grind

theorem mem_of_findDefinition? {ds : List TypeDef} {name : TypeName} {d : TypeDef}
    (h : findDefinition? ds name = some d) : d ∈ ds ∧ d.name = name :=
  ⟨List.mem_of_find?_eq_some h, by simpa using List.find?_some h⟩

/-! ## Look-ups in an accepted schema -/

/-- The entry of a definition in a schema. -/
def entry (ds : List TypeDef) (zipped : List (TypeDef × List TypeName))
    (p : TypeDef × List TypeName) : SchemaType where
  definition := p.1
  supertypes := p.2
  subtypes := zipped.filterMap fun (e, below) =>
    if e.name ≠ p.1.name ∧ p.1.name ∈ below then some e.name else none
  properties := inheritedProperties ds p.2

/-- An accepted schema has one entry for each definition, with the definition's
chain. -/
structure Lists (ds : List TypeDef) (m : Schema) (zipped : List (TypeDef × List TypeName)) :
    Prop where
  nodup : (ds.map (·.name)).Nodup
  definitions : zipped.map (·.1) = ds
  chains : ∀ p ∈ zipped, chainOf ds p.1.name = .ok p.2
  types : m.types = zipped.map (entry ds zipped)

theorem lists_of_accepted {ds : List TypeDef} {m : Schema} (h : ofDefinitions ds = .ok m) :
    ∃ zipped, Lists ds m zipped := by
  obtain ⟨_, hnames, h⟩ := Except.bind_eq_ok.mp h
  obtain ⟨_, _, h⟩ := Except.bind_eq_ok.mp h
  obtain ⟨chains, hchains, h⟩ := Except.bind_eq_ok.mp h
  have hall := List.forall₂_iff_zip.mp (List.mapM_eq_ok.mp hchains)
  have hfst : (ds.zip chains).map (·.1) = ds := List.map_fst_zip (Nat.le_of_eq hall.1)
  refine ⟨ds.zip chains, (checkNames_eq_ok_iff.mp hnames).1, hfst, fun p hp => hall.2 hp, ?_⟩
  rw [← Except.pure_eq_ok.mp h]
  rfl

section

variable {ds : List TypeDef} {m : Schema} {zipped : List (TypeDef × List TypeName)}

theorem Lists.typeNames_eq (h : Lists ds m zipped) : m.typeNames = zipped.map (·.1.name) := by
  rw [typeNames, h.types, List.map_map]
  rfl

theorem Lists.typeNames_eq_names (h : Lists ds m zipped) : m.typeNames = ds.map (·.name) := by
  rw [h.typeNames_eq, ← h.definitions, List.map_map]
  rfl

theorem Lists.find? (h : Lists ds m zipped) {p : TypeDef × List TypeName} (hp : p ∈ zipped) :
    m.find? p.1.name = some (entry ds zipped p) := by
  cases hf : m.find? p.1.name with
  | none =>
      rw [Schema.find?, h.types] at hf
      have := List.find?_eq_none.mp hf _ (List.mem_map_of_mem hp)
      simp [entry] at this
  | some t =>
      have hname : t.definition.name = p.1.name := by simpa using List.find?_some hf
      have ht : t ∈ zipped.map (entry ds zipped) := h.types ▸ List.mem_of_find?_eq_some hf
      obtain ⟨q, hq, rfl⟩ := List.mem_map.mp ht
      have hmem : ∀ r ∈ zipped, r.1 ∈ ds := fun r hr => h.definitions ▸ List.mem_map_of_mem hr
      have h1 : q.1 = p.1 := List.inj_on_of_nodup_map h.nodup (hmem q hq) (hmem p hp) hname
      have h2 : q.2 = p.2 := Except.ok.inj ((h.chains q hq).symm.trans (h1 ▸ h.chains p hp))
      rw [Prod.ext h1 h2]

theorem Lists.mem_of_find? (h : Lists ds m zipped) {name : TypeName} {t : SchemaType}
    (ht : m.find? name = some t) : ∃ p ∈ zipped, p.1.name = name ∧ t = entry ds zipped p := by
  have hmem : t ∈ zipped.map (entry ds zipped) := h.types ▸ List.mem_of_find?_eq_some ht
  obtain ⟨p, hp, rfl⟩ := List.mem_map.mp hmem
  exact ⟨p, hp, by simpa [entry] using List.find?_some ht, rfl⟩

theorem Lists.declares_iff (h : Lists ds m zipped) {name : TypeName} :
    m.declares name = true ↔ ∃ p ∈ zipped, p.1.name = name := by
  rw [declares, Option.isSome_iff_exists]
  constructor
  · rintro ⟨t, ht⟩
    obtain ⟨p, hp, hname, -⟩ := h.mem_of_find? ht
    exact ⟨p, hp, hname⟩
  · rintro ⟨p, hp, rfl⟩
    exact ⟨_, h.find? hp⟩

theorem Lists.fits_iff (h : Lists ds m zipped) {a b : TypeName} :
    m.fits a b = true ↔ m.declares a = true ∧ ReflTransGen (Extends ds) a b := by
  rw [fits, decide_eq_true_iff, supertypes]
  constructor
  · intro hb
    cases hf : m.find? a with
    | none => simp [hf] at hb
    | some t =>
        obtain ⟨p, hp, rfl, rfl⟩ := h.mem_of_find? hf
        refine ⟨h.declares_iff.mpr ⟨p, hp, rfl⟩, ?_⟩
        rw [hf] at hb
        exact (mem_chainOf_iff (h.chains p hp)).mp hb
  · rintro ⟨ha, hab⟩
    obtain ⟨p, hp, rfl⟩ := h.declares_iff.mp ha
    rw [h.find? hp]
    exact (mem_chainOf_iff (h.chains p hp)).mpr hab

theorem Lists.declares_of_findDefinition? (h : Lists ds m zipped) {name : TypeName}
    (hd : (findDefinition? ds name).isSome) : m.declares name = true := by
  obtain ⟨d, hd⟩ := Option.isSome_iff_exists.mp hd
  obtain ⟨hmem, rfl⟩ := mem_of_findDefinition? hd
  rw [← h.definitions] at hmem
  obtain ⟨p, hp, rfl⟩ := List.mem_map.mp hmem
  exact h.declares_iff.mpr ⟨p, hp, rfl⟩

theorem Lists.declares_of_fits (h : Lists ds m zipped) {a b : TypeName}
    (hab : m.fits a b = true) : m.declares b = true := by
  obtain ⟨ha, hab⟩ := h.fits_iff.mp hab
  obtain ⟨p, hp, rfl⟩ := h.declares_iff.mp ha
  have hb := (mem_chainOf_iff (h.chains p hp)).mpr hab
  exact h.declares_of_findDefinition? (defined_of_mem_chainOf (h.chains p hp) hb)

theorem Lists.mem_subtypes_iff (h : Lists ds m zipped) {a b : TypeName}
    (hb : m.declares b = true) : a ∈ m.subtypes b ↔ a ≠ b ∧ m.fits a b = true := by
  obtain ⟨p, hp, rfl⟩ := h.declares_iff.mp hb
  rw [subtypes, h.find? hp]
  simp only [entry, Option.map_some, Option.getD_some, List.mem_filterMap]
  constructor
  · rintro ⟨q, hq, ha⟩
    split at ha
    · rename_i hcond
      cases ha
      refine ⟨hcond.1, ?_⟩
      rw [fits, supertypes, h.find? hq]
      simpa [entry] using hcond.2
    · cases ha
  · rintro ⟨hne, hfits⟩
    obtain ⟨q, hq, rfl⟩ := h.declares_iff.mp (h.fits_iff.mp hfits).1
    rw [fits, supertypes, h.find? hq] at hfits
    exact ⟨q, hq, if_pos ⟨hne, by simpa [entry] using hfits⟩⟩

end

/-! ## Properties -/

theorem name_mem_addProperties {name : String} {added found : List PropertyDef} :
    (∃ p ∈ added.foldl
        (fun found p => if found.any (·.name = p.name) then found else found ++ [p]) found,
      p.name = name) ↔
      (∃ p ∈ found, p.name = name) ∨ ∃ p ∈ added, p.name = name := by
  induction added generalizing found with
  | nil => simp
  | cons q added ih =>
      rw [List.foldl_cons, ih]
      by_cases hany : found.any (·.name = q.name) = true
      · rw [if_pos hany]
        obtain ⟨r, hr, hrq⟩ := List.any_eq_true.mp hany
        have hrq : r.name = q.name := of_decide_eq_true hrq
        constructor
        · rintro (h | ⟨p, hp, h⟩)
          · exact .inl h
          · exact .inr ⟨p, List.mem_cons_of_mem _ hp, h⟩
        · rintro (h | ⟨p, hp, h⟩)
          · exact .inl h
          · rcases List.mem_cons.mp hp with rfl | hp
            · exact .inl ⟨r, hr, hrq.trans h⟩
            · exact .inr ⟨p, hp, h⟩
      · rw [if_neg hany]
        simp only [List.mem_append, List.mem_cons]
        grind

/-- Inheritance loses no property name. -/
theorem name_mem_inheritedProperties {ds : List TypeDef} {chain : List TypeName} {name : String} :
    (∃ p ∈ inheritedProperties ds chain, p.name = name) ↔
      ∃ t ∈ chain, ∃ d, findDefinition? ds t = some d ∧ ∃ p ∈ d.properties, p.name = name := by
  have go : ∀ (defs : List TypeDef) (found : List PropertyDef),
      (∃ p ∈ defs.foldl (fun found d => d.properties.foldl
          (fun found p => if found.any (·.name = p.name) then found else found ++ [p]) found) found,
        p.name = name) ↔
        (∃ p ∈ found, p.name = name) ∨ ∃ d ∈ defs, ∃ p ∈ d.properties, p.name = name := by
    intro defs
    induction defs with
    | nil => simp
    | cons d defs ih =>
        intro found
        rw [List.foldl_cons, ih, name_mem_addProperties]
        simp only [List.mem_cons, exists_eq_or_imp, or_assoc]
  rw [inheritedProperties, go]
  simp only [List.not_mem_nil, false_and, exists_false, false_or, List.mem_filterMap]
  constructor
  · rintro ⟨d, ⟨t, ht, hd⟩, hp⟩
    exact ⟨t, ht, d, hd, hp⟩
  · rintro ⟨t, ht, d, hd, hp⟩
    exact ⟨d, ⟨t, ht, hd⟩, hp⟩

theorem property?_isSome_iff {m : Schema} {owner : TypeName} {name : String} :
    (m.property? owner name).isSome ↔ ∃ p ∈ m.properties owner, p.name = name := by
  rw [property?, List.find?_isSome]
  simp

/-! ## Coherence -/

/-- What look-ups in an accepted schema give. -/
structure Coherent (m : Schema) : Prop where
  fits_refl : ∀ {t}, m.declares t = true → m.fits t t = true
  fits_trans : ∀ {a b c}, m.fits a b = true → m.fits b c = true → m.fits a c = true
  declares_left : ∀ {a b}, m.fits a b = true → m.declares a = true
  declares_right : ∀ {a b}, m.fits a b = true → m.declares b = true
  mem_subtypes : ∀ {a b}, m.declares b = true →
    (a ∈ m.subtypes b ↔ a ≠ b ∧ m.fits a b = true)
  /-- Whatever fits a type has its properties. -/
  has_property : ∀ {a b name}, m.fits a b = true → (m.property? b name).isSome →
    (m.property? a name).isSome

theorem coherent_of_accepted {ds : List TypeDef} {m : Schema} (h : ofDefinitions ds = .ok m) :
    m.Coherent := by
  obtain ⟨zipped, hl⟩ := lists_of_accepted h
  refine ⟨?refl, ?trans, ?left, ?right, ?subtypes, ?property⟩
  case refl =>
    intro t ht
    exact hl.fits_iff.mpr ⟨ht, .refl⟩
  case trans =>
    intro a b c hab hbc
    obtain ⟨ha, hab⟩ := hl.fits_iff.mp hab
    obtain ⟨-, hbc⟩ := hl.fits_iff.mp hbc
    exact hl.fits_iff.mpr ⟨ha, hab.trans hbc⟩
  case left =>
    intro a b hab
    exact (hl.fits_iff.mp hab).1
  case right =>
    intro a b hab
    exact hl.declares_of_fits hab
  case subtypes =>
    intro a b hb
    exact hl.mem_subtypes_iff hb
  case property =>
    intro a b name hab hname
    obtain ⟨p, hp, rfl⟩ := hl.declares_iff.mp (hl.fits_iff.mp hab).1
    obtain ⟨q, hq, rfl⟩ := hl.declares_iff.mp (hl.declares_of_fits hab)
    rw [property?_isSome_iff, properties, hl.find? hq] at hname
    rw [property?_isSome_iff, properties, hl.find? hp]
    -- the type that has the property is above `q`, and so above `p`
    obtain ⟨t, ht, hd⟩ := name_mem_inheritedProperties.mp hname
    have hpq : ReflTransGen (Extends ds) p.1.name q.1.name := (hl.fits_iff.mp hab).2
    have hqt : ReflTransGen (Extends ds) q.1.name t := (mem_chainOf_iff (hl.chains q hq)).mp ht
    have hpt : t ∈ p.2 := (mem_chainOf_iff (hl.chains p hp)).mpr (hpq.trans hqt)
    exact name_mem_inheritedProperties.mpr ⟨t, hpt, hd⟩

/-! ## Concrete types -/

theorem isConcrete_iff {m : Schema} {t : TypeName} :
    m.isConcrete t = true ↔ m.declares t = true ∧ m.isAbstract t = false := by
  unfold isConcrete declares isAbstract definition?
  cases m.find? t <;> simp

theorem isConcrete_of_definition? {m : Schema} {t : TypeName} {d : TypeDef}
    (h : m.definition? t = some d) (hconcrete : ¬ d.isAbstract = true) :
    m.isConcrete t = true := by
  simp [isConcrete, h, hconcrete]

theorem mem_typeNames_iff {m : Schema} {t : TypeName} :
    t ∈ m.typeNames ↔ m.declares t = true := by
  rw [typeNames, declares, Schema.find?, List.find?_isSome, List.mem_map]
  simp

/-- No name is declared twice. -/
theorem typeNames_nodup {ds : List TypeDef} {m : Schema} (h : ofDefinitions ds = .ok m) :
    m.typeNames.Nodup := by
  obtain ⟨zipped, hl⟩ := lists_of_accepted h
  rw [hl.typeNames_eq_names]
  exact hl.nodup

theorem mem_concretes_iff {m : Schema} {t : TypeName} :
    t ∈ m.concretes ↔ m.isConcrete t = true := by
  rw [concretes, List.mem_filter, mem_typeNames_iff, isConcrete_iff]
  simp

/-- The concrete types under a type are those that fit it. -/
theorem Coherent.mem_concretesUnder_iff {m : Schema} (hm : m.Coherent) {t static : TypeName} :
    t ∈ m.concretesUnder static ↔ m.isConcrete t = true ∧ m.fits t static = true := by
  unfold concretesUnder
  by_cases hs : m.declares static = true
  · rw [if_pos hs, List.mem_filter, List.mem_cons, hm.mem_subtypes hs, isConcrete_iff]
    constructor
    · rintro ⟨ht, hab⟩
      have hfits : m.fits t static = true := by
        rcases ht with rfl | ⟨-, h⟩
        · exact hm.fits_refl hs
        · exact h
      exact ⟨⟨hm.declares_left hfits, by simpa using hab⟩, hfits⟩
    · rintro ⟨⟨-, hab⟩, hfits⟩
      refine ⟨?_, by simpa using hab⟩
      by_cases h : t = static
      · exact .inl h
      · exact .inr ⟨h, hfits⟩
  · rw [if_neg hs]
    constructor
    · intro h
      cases h
    · rintro ⟨-, hfits⟩
      exact absurd (hm.declares_right hfits) hs

end IndexSync.Schema
