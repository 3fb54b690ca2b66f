import IndexSync.Proofs.Schema.Inheritance
import IndexSync.Sample.Couple

/-!
# Which schemas are accepted, and what their closure holds

- `Acceptable` — names occur once, supertypes are declared, and no type inherits
  from itself.
- `Inherits` — what the look-ups of a schema owe to the definitions it was made
  of: chains of supertypes, subtypes, fitting and properties.
- `accepted_iff_acceptable` — acceptable definitions are the ones accepted, and
  the schema made of them closes them under inheritance.

Success of a search upwards says that every line of inheritance ends
(`Grounded`), since a search that meets one of the types above it fails.  The
other way round, an acyclic line of descent has no more types than are declared,
so the search is never too deep.
-/

namespace IndexSync.Schema

open Relation

/-- Definitions that inheritance can be worked out for. -/
structure Acceptable (ds : List TypeDef) : Prop where
  types_nodup : (ds.map (·.name)).Nodup
  properties_nodup : ∀ d ∈ ds, (d.properties.map (·.name)).Nodup
  supertypes_declared : ∀ d ∈ ds, ∀ s ∈ d.supertypes, s ∈ ds.map (·.name)
  acyclic : ∀ t, ¬ TransGen (Extends ds) t t

/-- A schema made of definitions holds what follows from them by inheritance. -/
structure Inherits (ds : List TypeDef) (m : Schema) : Prop where
  typeNames_eq : m.typeNames = ds.map (·.name)
  declares_iff : ∀ {t}, m.declares t = true ↔ t ∈ ds.map (·.name)
  /-- A chain starts with its type. -/
  supertypes_head : ∀ {t}, m.declares t = true → ∃ above, m.supertypes t = t :: above
  supertypes_nodup : ∀ {t}, m.declares t = true → (m.supertypes t).Nodup
  mem_supertypes_iff : ∀ {t s}, m.declares t = true →
    (s ∈ m.supertypes t ↔ ReflTransGen (Extends ds) t s)
  /-- Subtypes come in declaration order, each once. -/
  subtypes_eq : ∀ {t}, m.declares t = true →
    m.subtypes t = m.typeNames.filter fun s => s ≠ t ∧ t ∈ m.supertypes s
  subtypes_nodup : ∀ {t}, m.declares t = true → (m.subtypes t).Nodup
  fits_refl : ∀ {t}, m.declares t = true → m.fits t t = true
  fits_trans : ∀ {a b c}, m.fits a b = true → m.fits b c = true → m.fits a c = true
  fits_antisymm : ∀ {a b}, m.fits a b = true → m.fits b a = true → a = b
  fits_undeclared : ∀ {a b}, ¬ (m.declares a = true ∧ m.declares b = true) → m.fits a b = false
  properties_nodup : ∀ {t}, m.declares t = true → ((m.properties t).map (·.name)).Nodup
  /-- The names that a type has properties for are those declared on its chain. -/
  mem_properties_iff : ∀ {t name}, m.declares t = true →
    (name ∈ (m.properties t).map (·.name) ↔
      ∃ d ∈ ds, ReflTransGen (Extends ds) t d.name ∧ name ∈ d.properties.map (·.name))
  properties_inherited : ∀ {a b name}, m.fits a b = true →
    name ∈ (m.properties b).map (·.name) → name ∈ (m.properties a).map (·.name)

/-! ## Lines of inheritance -/

section

variable {ds : List TypeDef}

/-- A line of inheritance that ends does not come back. -/
theorem Grounded.acyclic {t : TypeName} (h : Grounded ds t) : ¬ TransGen (Extends ds) t t := by
  induction h with
  | intro t _ ih =>
      intro hcycle
      obtain ⟨s, hts, hst⟩ := TransGen.head'_iff.mp hcycle
      exact ih s hts (TransGen.tail' hst hts)

theorem findDefinition?_isSome_iff {name : TypeName} :
    (findDefinition? ds name).isSome ↔ name ∈ ds.map (·.name) := by
  rw [findDefinition?, List.find?_isSome, List.mem_map]
  simp

/-- With distinct names, the definition of a name is the one that has it. -/
theorem findDefinition?_eq_some_iff (hnodup : (ds.map (·.name)).Nodup) {name : TypeName}
    {d : TypeDef} : findDefinition? ds name = some d ↔ d ∈ ds ∧ d.name = name := by
  constructor
  · exact mem_of_findDefinition?
  · rintro ⟨hd, rfl⟩
    have hsome : (findDefinition? ds d.name).isSome :=
      findDefinition?_isSome_iff.mpr (List.mem_map_of_mem hd)
    obtain ⟨e, he⟩ := Option.isSome_iff_exists.mp hsome
    obtain ⟨hmem, hname⟩ := mem_of_findDefinition? he
    rw [he, List.inj_on_of_nodup_map hnodup hmem hd hname]

theorem declared_of_extends {t s : TypeName} (h : Extends ds t s) : t ∈ ds.map (·.name) := by
  obtain ⟨d, hd, -⟩ := h
  obtain ⟨hmem, rfl⟩ := mem_of_findDefinition? hd
  exact List.mem_map_of_mem hmem

theorem checkSupertypes_eq_ok_iff : checkSupertypes ds = .ok () ↔
    ∀ d ∈ ds, ∀ s ∈ d.supertypes, s ∈ ds.map (·.name) := by
  unfold checkSupertypes
  split
  · rename_i name hunknown
    refine iff_of_false (by simp) ?_
    intro h
    obtain ⟨d, hd, hs⟩ := List.exists_of_findSome?_eq_some hunknown
    have hdeclared := findDefinition?_isSome_iff.mpr (h d hd name (List.mem_of_find?_eq_some hs))
    have hnone : (findDefinition? ds name).isNone = true :=
      List.find?_some (p := fun s => (findDefinition? ds s).isNone) hs
    rw [Option.isNone_iff_eq_none.mp hnone] at hdeclared
    cases hdeclared
  · rename_i hnone
    refine iff_of_true rfl ?_
    intro d hd s hs
    have hfound := List.find?_eq_none.mp (List.findSome?_eq_none_iff.mp hnone d hd) s hs
    rw [Bool.not_eq_true, Option.isNone_eq_false_iff] at hfound
    exact findDefinition?_isSome_iff.mp hfound

/-! ## Success of the search -/

/-- Chains of definitions that are all found hold no cycle. -/
theorem acyclic_of_chains (h : ∀ d ∈ ds, ∃ chain, chainOf ds d.name = .ok chain) (t : TypeName) :
    ¬ TransGen (Extends ds) t t := by
  intro hcycle
  obtain ⟨s, hts, -⟩ := TransGen.head'_iff.mp hcycle
  obtain ⟨d, hd, rfl⟩ := List.mem_map.mp (declared_of_extends hts)
  obtain ⟨chain, hchain⟩ := h d hd
  have hf : Follows ds [] [] [d.name] chain := follows_extendChain hchain
  have hgrounded : GroundedBut ds [] chain := hf.grounded (by simp [GroundedBut])
  exact (hgrounded d.name (hf.adds List.mem_cons_self) (by simp)).acyclic hcycle

/-- A fold succeeds when each of its steps does, from wherever it starts. -/
theorem exists_foldlM {f : List TypeName → TypeName → Except DataError (List TypeName)}
    {names : List TypeName} (h : ∀ n ∈ names, ∀ chain, ∃ chain', f chain n = .ok chain') :
    ∀ chain, ∃ chain', names.foldlM f chain = .ok chain' := by
  induction names with
  | nil => exact fun chain => ⟨chain, List.foldlM_nil_eq_ok.mpr rfl⟩
  | cons n names ih =>
      intro chain
      obtain ⟨mid, hmid⟩ := h n List.mem_cons_self chain
      obtain ⟨chain', hchain'⟩ := ih (fun k hk => h k (List.mem_cons_of_mem _ hk)) mid
      exact ⟨chain', List.foldlM_cons_eq_ok.mpr ⟨mid, hmid, hchain'⟩⟩

/-- The types above a search, when they are all declared, distinct and inherit
from the type searched. -/
structure LineAbove (ds : List TypeDef) (above : List TypeName) (name : TypeName) : Prop where
  nodup : above.Nodup
  declared : above ⊆ ds.map (·.name)
  inherits : ∀ a ∈ above, TransGen (Extends ds) a name

/-- No line is longer than there are types. -/
theorem LineAbove.length_le {above : List TypeName} {name : TypeName}
    (h : LineAbove ds above name) : above.length ≤ ds.length := by
  have hle := h.nodup.length_le_of_subset h.declared
  rwa [List.length_map] at hle

theorem LineAbove.cons {above : List TypeName} {name s : TypeName} (h : LineAbove ds above name)
    (hnew : name ∉ above) (hname : Extends ds name s) : LineAbove ds (name :: above) s where
  nodup := List.nodup_cons.mpr ⟨hnew, h.nodup⟩
  declared := List.cons_subset.mpr ⟨declared_of_extends hname, h.declared⟩
  inherits := by
    intro a ha
    rcases List.mem_cons.mp ha with rfl | ha
    · exact .single hname
    · exact (h.inherits a ha).tail hname

/-- The search succeeds from below any line, if its depth and the line make up
more than the number of types. -/
theorem Acceptable.exists_extendChain (h : Acceptable ds) :
    ∀ {depth above chain name}, name ∈ ds.map (·.name) → LineAbove ds above name →
      ds.length < depth + above.length →
      ∃ chain', extendChain ds depth above chain name = .ok chain' := by
  intro depth
  induction depth with
  | zero =>
      intro above chain name _ hline hdeep
      exact absurd hline.length_le (by omega)
  | succ depth ih =>
      intro above chain name hname hline hdeep
      have hnew : name ∉ above := fun habove => h.acyclic name (hline.inherits name habove)
      obtain ⟨d, hd⟩ := Option.isSome_iff_exists.mp (findDefinition?_isSome_iff.mpr hname)
      rw [extendChain, if_neg hnew, hd]
      by_cases hchain : name ∈ chain
      · rw [if_pos hchain]
        exact ⟨chain, rfl⟩
      · rw [if_neg hchain]
        apply exists_foldlM
        intro s hs chain
        refine ih ?_ (hline.cons hnew ⟨d, hd, hs⟩) ?_
        · exact h.supertypes_declared d (mem_of_findDefinition? hd).1 s hs
        · rw [List.length_cons]
          omega

theorem Acceptable.exists_chainOf (h : Acceptable ds) {name : TypeName}
    (hname : name ∈ ds.map (·.name)) : ∃ chain, chainOf ds name = .ok chain := by
  have hline : LineAbove ds [] name := ⟨List.nodup_nil, List.nil_subset _, by simp⟩
  exact h.exists_extendChain hname hline (by simp)

/-- Members that all have a result have a list of results. -/
theorem exists_mapM {f : α → Except ε β} {l : List α} (h : ∀ a ∈ l, ∃ b, f a = .ok b) :
    ∃ bs, l.mapM f = .ok bs := by
  induction l with
  | nil => exact ⟨[], List.mapM_eq_ok.mpr .nil⟩
  | cons a l ih =>
      obtain ⟨b, hb⟩ := h a List.mem_cons_self
      obtain ⟨bs, hbs⟩ := ih (fun c hc => h c (List.mem_cons_of_mem _ hc))
      exact ⟨b :: bs, List.mapM_eq_ok.mpr (.cons hb (List.mapM_eq_ok.mp hbs))⟩

theorem exists_ofDefinitions_iff : (∃ m, ofDefinitions ds = .ok m) ↔ Acceptable ds := by
  constructor
  · rintro ⟨m, h⟩
    obtain ⟨⟨⟩, hnames, h⟩ := Except.bind_eq_ok.mp h
    obtain ⟨⟨⟩, hsupertypes, h⟩ := Except.bind_eq_ok.mp h
    obtain ⟨chains, hchains, -⟩ := Except.bind_eq_ok.mp h
    obtain ⟨htypes, -, hproperties⟩ := checkNames_eq_ok_iff.mp hnames
    refine ⟨htypes, hproperties, checkSupertypes_eq_ok_iff.mp hsupertypes, ?_⟩
    apply acyclic_of_chains
    intro d hd
    obtain ⟨chain, -, hchain⟩ := List.Forall₂.exists_right (List.mapM_eq_ok.mp hchains) hd
    exact ⟨chain, hchain⟩
  · intro h
    have hnames : checkNames [] ds = .ok () :=
      checkNames_eq_ok_iff.mpr ⟨h.types_nodup, by simp, h.properties_nodup⟩
    have hsupertypes : checkSupertypes ds = .ok () :=
      checkSupertypes_eq_ok_iff.mpr h.supertypes_declared
    obtain ⟨chains, hchains⟩ : ∃ chains, ds.mapM (fun d => chainOf ds d.name) = .ok chains :=
      exists_mapM fun d hd => h.exists_chainOf (List.mem_map_of_mem hd)
    rw [ofDefinitions, hnames]
    exact ⟨_, Except.bind_eq_ok.mpr ⟨(), rfl, Except.bind_eq_ok.mpr ⟨(), hsupertypes,
      Except.bind_eq_ok.mpr ⟨chains, hchains, rfl⟩⟩⟩⟩

/-! ## Chains and properties -/

theorem nodup_of_chainOf {name : TypeName} {chain : List TypeName}
    (h : chainOf ds name = .ok chain) : chain.Nodup :=
  (follows_extendChain h).nodup List.nodup_nil

/-- Its type comes first in a chain. -/
theorem head_of_chainOf {name : TypeName} {chain : List TypeName}
    (h : chainOf ds name = .ok chain) : ∃ above, chain = name :: above := by
  rw [chainOf, extendChain, if_neg (by simp), if_neg (by simp)] at h
  split at h
  · cases h
  · rename_i d hd
    have hf : Follows ds [name] ([] ++ [name]) d.supertypes chain :=
      Follows.foldlM (fun _ _ _ h => follows_extendChain h) h
    obtain ⟨above, habove⟩ := hf.keeps
    exact ⟨above, habove.symm⟩

theorem nodup_addProperties {added : List PropertyDef} :
    ∀ {found : List PropertyDef}, (found.map (·.name)).Nodup →
      ((added.foldl
        (fun found p => if found.any (·.name = p.name) then found else found ++ [p]) found).map
          (·.name)).Nodup := by
  induction added with
  | nil => exact id
  | cons p added ih =>
      intro found hfound
      rw [List.foldl_cons]
      apply ih
      by_cases hany : found.any (·.name = p.name) = true
      · rwa [if_pos hany]
      · rw [if_neg hany, List.map_append, List.map_singleton, ← List.concat_eq_append]
        apply hfound.concat
        intro hmem
        obtain ⟨q, hq, hqp⟩ := List.mem_map.mp hmem
        exact hany (List.any_eq_true.mpr ⟨q, hq, decide_eq_true hqp⟩)

/-- A chain gives one property for each name. -/
theorem nodup_inheritedProperties {chain : List TypeName} :
    ((inheritedProperties ds chain).map (·.name)).Nodup := by
  rw [inheritedProperties]
  generalize chain.filterMap (findDefinition? ds) = defs
  suffices go : ∀ found : List PropertyDef, (found.map (·.name)).Nodup →
      ((defs.foldl (fun found d => d.properties.foldl
        (fun found p => if found.any (·.name = p.name) then found else found ++ [p]) found)
          found).map (·.name)).Nodup from go [] (by simp)
  induction defs with
  | nil => exact fun _ => id
  | cons d defs ih =>
      intro found hfound
      rw [List.foldl_cons]
      exact ih _ (nodup_addProperties hfound)

end

/-! ## Look-ups -/

section

variable {ds : List TypeDef} {m : Schema} {zipped : List (TypeDef × List TypeName)}

theorem Lists.supertypes_eq (h : Lists ds m zipped) {p : TypeDef × List TypeName}
    (hp : p ∈ zipped) : m.supertypes p.1.name = p.2 := by
  rw [supertypes, h.find? hp]
  rfl

theorem Lists.chainOf_eq (h : Lists ds m zipped) {t : TypeName} (ht : m.declares t = true) :
    chainOf ds t = .ok (m.supertypes t) := by
  obtain ⟨p, hp, rfl⟩ := h.declares_iff.mp ht
  rw [h.supertypes_eq hp]
  exact h.chains p hp

theorem Lists.properties_eq (h : Lists ds m zipped) {t : TypeName} (ht : m.declares t = true) :
    m.properties t = inheritedProperties ds (m.supertypes t) := by
  obtain ⟨p, hp, rfl⟩ := h.declares_iff.mp ht
  rw [h.supertypes_eq hp, properties, h.find? hp]
  rfl

theorem Lists.subtypes_eq (h : Lists ds m zipped) {t : TypeName} (ht : m.declares t = true) :
    m.subtypes t = m.typeNames.filter fun s => s ≠ t ∧ t ∈ m.supertypes s := by
  obtain ⟨p, hp, rfl⟩ := h.declares_iff.mp ht
  rw [subtypes, h.find? hp, h.typeNames_eq, ← List.filterMap_eq_filter, List.filterMap_map]
  apply List.filterMap_congr
  intro q hq
  simp [Option.guard, h.supertypes_eq hq]

theorem Lists.mem_properties_iff (h : Lists ds m zipped) {t : TypeName} {name : String}
    (ht : m.declares t = true) : name ∈ (m.properties t).map (·.name) ↔
      ∃ d ∈ ds, ReflTransGen (Extends ds) t d.name ∧ name ∈ d.properties.map (·.name) := by
  rw [h.properties_eq ht, List.mem_map, name_mem_inheritedProperties]
  constructor
  · rintro ⟨s, hs, d, hd, hp⟩
    obtain ⟨hmem, rfl⟩ := mem_of_findDefinition? hd
    exact ⟨d, hmem, (mem_chainOf_iff (h.chainOf_eq ht)).mp hs, List.mem_map.mpr hp⟩
  · rintro ⟨d, hd, hts, hp⟩
    exact ⟨d.name, (mem_chainOf_iff (h.chainOf_eq ht)).mpr hts, d,
      (findDefinition?_eq_some_iff h.nodup).mpr ⟨hd, rfl⟩, List.mem_map.mp hp⟩

theorem inherits_of_accepted (h : ofDefinitions ds = .ok m) : Inherits ds m := by
  obtain ⟨zipped, hl⟩ := lists_of_accepted h
  have hcoherent : m.Coherent := coherent_of_accepted h
  have hacceptable : Acceptable ds := exists_ofDefinitions_iff.mp ⟨m, h⟩
  refine ⟨hl.typeNames_eq_names, ?declares, ?head, ?nodup, ?mem, hl.subtypes_eq, ?subtypes,
    hcoherent.fits_refl, hcoherent.fits_trans, ?antisymm, ?undeclared, ?properties,
    hl.mem_properties_iff, ?inherited⟩
  case declares =>
    intro t
    rw [← mem_typeNames_iff, hl.typeNames_eq_names]
  case head =>
    intro t ht
    exact head_of_chainOf (hl.chainOf_eq ht)
  case nodup =>
    intro t ht
    exact nodup_of_chainOf (hl.chainOf_eq ht)
  case mem =>
    intro t s ht
    exact mem_chainOf_iff (hl.chainOf_eq ht)
  case subtypes =>
    intro t ht
    rw [hl.subtypes_eq ht]
    exact (typeNames_nodup h).filter _
  case antisymm =>
    intro a b hab hba
    by_contra hne
    obtain ⟨-, hab⟩ := hl.fits_iff.mp hab
    obtain ⟨-, hba⟩ := hl.fits_iff.mp hba
    rcases reflTransGen_iff_eq_or_transGen.mp hab with rfl | hab
    · exact hne rfl
    · exact hacceptable.acyclic a (hab.trans_left hba)
  case undeclared =>
    intro a b hnot
    rw [← Bool.not_eq_true]
    intro hab
    exact hnot ⟨hcoherent.declares_left hab, hcoherent.declares_right hab⟩
  case properties =>
    intro t ht
    rw [hl.properties_eq ht]
    exact nodup_inheritedProperties
  case inherited =>
    intro a b name hab hname
    obtain ⟨d, hd, hbd, hp⟩ := (hl.mem_properties_iff (hcoherent.declares_right hab)).mp hname
    obtain ⟨ha, hab⟩ := hl.fits_iff.mp hab
    exact (hl.mem_properties_iff ha).mpr ⟨d, hd, hab.trans hbd, hp⟩

end

/-- Definitions are accepted when names occur once, supertypes are declared and
no type inherits from itself; and the schema made of them is their closure under
inheritance. -/
theorem accepted_iff_acceptable (ds : List TypeDef) :
    ((∃ m, ofDefinitions ds = .ok m) ↔ Acceptable ds) ∧
      ∀ m, ofDefinitions ds = .ok m → Inherits ds m :=
  ⟨exists_ofDefinitions_iff, fun _ h => inherits_of_accepted h⟩

/-- A type below two others, which share a supertype and a property name. -/
def vehicles : List TypeDef := [
  ((TypeDef.entity "Amphibian").extending "Boat").extending "Car"
    |>.withProperty "depth" (.scalar .integer),
  (TypeDef.entity "Car").extending "Vehicle"
    |>.withProperty "speed" (.scalar .integer),
  (TypeDef.entity "Boat").extending "Vehicle"
    |>.withProperty "speed" (.scalar .integer),
  (TypeDef.entity "Vehicle").withId "plate" (.scalar .text)
    |>.withProperty "depth" (.scalar .text)]

def vehiclesSchema : Schema :=
  (ofDefinitions vehicles).value (by decide +kernel)

theorem accepted_iff_acceptable_vehicles :
    ofDefinitions vehicles = .ok vehiclesSchema ∧ Acceptable vehicles ∧
      Inherits vehicles vehiclesSchema ∧
      vehiclesSchema.supertypes "Amphibian" = ["Amphibian", "Boat", "Vehicle", "Car"] ∧
      vehiclesSchema.subtypes "Vehicle" = ["Amphibian", "Car", "Boat"] ∧
      (vehiclesSchema.properties "Amphibian").map (·.name) = ["depth", "speed", "plate"] := by
  have haccepted : ofDefinitions vehicles = .ok vehiclesSchema := Except.eq_ok_value _
  obtain ⟨hiff, hinherits⟩ := accepted_iff_acceptable vehicles
  exact ⟨haccepted, hiff.mp ⟨_, haccepted⟩, hinherits _ haccepted, by decide +kernel,
    by decide +kernel, by decide +kernel⟩

end IndexSync.Schema
