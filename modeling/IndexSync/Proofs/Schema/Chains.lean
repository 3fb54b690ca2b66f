import Mathlib.Data.List.Infix
import IndexSync.Proofs.Schema.Acceptance

/-!
# The order of a chain of supertypes

- `Closes` — the types that have a chain: lines of inheritance end at declared types.
- `supertypes_eq_merged` — a chain is the type itself and then the chains of its direct
  supertypes, one after another, each name where it comes first.
- `SubtypesFirst` — no type of a chain stands before one of its own subtypes.
- `SpecificFirst` — no direct supertype brings in a subtype of what those listed before it
  have brought in.
- `specificFirst_iff` — this is what it takes for all chains to have subtypes first.
-/

namespace IndexSync.Schema

open Relation

/-! ## Merging chains -/

/-- A chain followed by what the chains of `names` add to it, one after another. -/
def merged (chains : TypeName → List TypeName) (chain names : List TypeName) : List TypeName :=
  names.foldl (fun chain name => chain ++ (chains name).filter (· ∉ chain)) chain

section

variable {chains : TypeName → List TypeName} {chain names : List TypeName} {name t : TypeName}

theorem merged_cons : merged chains chain (name :: names) =
    merged chains (chain ++ (chains name).filter (· ∉ chain)) names := rfl

theorem merged_append {more : List TypeName} : merged chains chain (names ++ more) =
    merged chains (merged chains chain names) more :=
  List.foldl_append

theorem merged_snoc : merged chains chain (names ++ [name]) =
    merged chains chain names ++ (chains name).filter (· ∉ merged chains chain names) := by
  rw [merged_append]
  rfl

theorem merged_congr {chains' : TypeName → List TypeName}
    (h : ∀ s ∈ names, chains s = chains' s) :
    merged chains chain names = merged chains' chain names := by
  induction names generalizing chain with
  | nil => rfl
  | cons name names ih =>
      rw [merged_cons, merged_cons, h name List.mem_cons_self]
      exact ih fun s hs => h s (List.mem_cons_of_mem _ hs)

theorem prefix_merged : chain <+: merged chains chain names := by
  induction names generalizing chain with
  | nil => exact List.prefix_refl chain
  | cons name names ih => exact (List.prefix_append _ _).trans ih

theorem mem_merged : t ∈ merged chains chain names ↔ t ∈ chain ∨ ∃ s ∈ names, t ∈ chains s := by
  induction names generalizing chain with
  | nil => simp [merged]
  | cons name names ih =>
      rw [merged_cons, ih, List.mem_append, List.mem_filter, decide_eq_true_iff]
      simp only [List.mem_cons, exists_eq_or_imp]
      tauto

/-- What stood in front before the merging only hides names from it. -/
theorem merged_append_filter {base own : List TypeName} :
    merged chains (base ++ own.filter (· ∉ base)) names =
      base ++ (merged chains own names).filter (· ∉ base) := by
  induction names generalizing own with
  | nil => rfl
  | cons name names ih =>
      have hstep : base ++ own.filter (· ∉ base) ++
          (chains name).filter (· ∉ base ++ own.filter (· ∉ base)) =
          base ++ (own ++ (chains name).filter (· ∉ own)).filter (· ∉ base) := by
        rw [List.append_assoc, List.filter_append, List.filter_filter]
        congr 2
        apply List.filter_congr
        intro t _
        by_cases hbase : t ∈ base <;> simp [hbase]
      rw [merged_cons, merged_cons, hstep, ih]

end

/-! ## Following supertypes merges their chains -/

/-- The chain of a type, if it has one. -/
def chainIn (ds : List TypeDef) (name : TypeName) : List TypeName :=
  (chainOf ds name).toOption.getD []

/-- Every line of inheritance from the type ends, and passes through declared types only. -/
inductive Closes (ds : List TypeDef) : TypeName → Prop
  | intro {name : TypeName} {d : TypeDef} : findDefinition? ds name = some d →
      (∀ s ∈ d.supertypes, Closes ds s) → Closes ds name

section

variable {ds : List TypeDef} {m : Schema} {name s t : TypeName} {chain : List TypeName}

theorem Closes.of_extends (h : Closes ds t) (hs : Extends ds t s) : Closes ds s := by
  cases h with
  | intro hd hsupers =>
      obtain ⟨_, hd', hmem⟩ := hs
      cases hd.symm.trans hd'
      exact hsupers s hmem

theorem Closes.of_inherits (h : Closes ds t) (hs : ReflTransGen (Extends ds) t s) :
    Closes ds s := by
  induction hs with
  | refl => exact h
  | tail _ hst ih => exact ih.of_extends hst

theorem Closes.grounded (h : Closes ds t) : Grounded ds t := by
  induction h with
  | intro hd _ ih =>
      refine Acc.intro _ ?_
      rintro s ⟨_, hd', hs⟩
      cases hd.symm.trans hd'
      exact ih s hs

theorem Grounded.closes (h : Grounded ds t) (ht : t ∈ ds.map (·.name))
    (hdeclared : ∀ d ∈ ds, ∀ s ∈ d.supertypes, s ∈ ds.map (·.name)) : Closes ds t := by
  induction h with
  | intro t _ ih =>
      obtain ⟨d, hd⟩ := Option.isSome_iff_exists.mp (findDefinition?_isSome_iff.mpr ht)
      refine .intro hd fun s hs => ih s ⟨d, hd, hs⟩ ?_
      exact hdeclared d (mem_of_findDefinition? hd).1 s hs

/-- A type that is in a closed chain has all of its own chain there. -/
theorem ClosedBut.mem_of_inherits {above chain : List TypeName} (h : ClosedBut ds above chain)
    (hcloses : Closes ds name) (habove : ∀ a ∈ above, TransGen (Extends ds) a name)
    (hname : name ∈ chain) (ht : ReflTransGen (Extends ds) name t) : t ∈ chain := by
  induction ht with
  | refl => exact hname
  | @tail s t hs hst ih =>
      have hs : s ∉ above := fun hmem =>
        (hcloses.of_inherits hs).grounded.acyclic ((habove s hmem).trans_left hs)
      exact h s ih hs t hst

/-- Following the type adds its own chain to any chain closed under inheritance but for the
line above it, unless the search is too deep. -/
def AddsChain (ds : List TypeDef) (name : TypeName) : Prop :=
  ∀ {depth above chain}, LineAbove ds above name → ds.length < depth + above.length →
    ClosedBut ds above chain →
      extendChain ds depth above chain name = .ok (chain ++ (chainIn ds name).filter (· ∉ chain))

theorem foldlM_extendChain {depth : Nat} {above names : List TypeName}
    (hadds : ∀ s ∈ names, AddsChain ds s) (hline : ∀ s ∈ names, LineAbove ds above s)
    (hdeep : ds.length < depth + above.length) :
    ∀ {chain}, ClosedBut ds above chain →
      names.foldlM (extendChain ds depth above) chain = .ok (merged (chainIn ds) chain names) := by
  induction names with
  | nil => exact fun _ => rfl
  | cons name names ih =>
      intro chain hclosed
      have hstep := hadds name List.mem_cons_self (hline name List.mem_cons_self) hdeep hclosed
      refine List.foldlM_cons_eq_ok.mpr ⟨_, hstep, ?_⟩
      rw [merged_cons]
      apply ih
      · exact fun s hs => hadds s (List.mem_cons_of_mem _ hs)
      · exact fun s hs => hline s (List.mem_cons_of_mem _ hs)
      · exact (follows_extendChain hstep).closed hclosed

theorem LineAbove.nil : LineAbove ds [] name :=
  ⟨List.nodup_nil, List.nil_subset _, by simp⟩

theorem closedBut_nil : ClosedBut ds [] [] := by simp [ClosedBut]

theorem extendChain_of_new {depth : Nat} {above chain : List TypeName} {d : TypeDef}
    (hd : findDefinition? ds name = some d) (habove : name ∉ above) (hnew : name ∉ chain) :
    extendChain ds (depth + 1) above chain name =
      d.supertypes.foldlM (extendChain ds depth (name :: above)) (chain ++ [name]) := by
  rw [extendChain, if_neg habove, if_neg hnew, hd]

theorem chainOf_of_adds {d : TypeDef} (hd : findDefinition? ds name = some d)
    (hadds : ∀ s ∈ d.supertypes, AddsChain ds s) :
    chainOf ds name = .ok (merged (chainIn ds) [name] d.supertypes) := by
  have hline : ∀ s ∈ d.supertypes, LineAbove ds [name] s := fun s hs =>
    LineAbove.nil.cons (by simp) ⟨d, hd, hs⟩
  rw [chainOf, extendChain_of_new hd (by simp) (by simp)]
  exact foldlM_extendChain hadds hline (by simp) (closedBut_nil.enter name)

theorem chainIn_eq (h : chainOf ds name = .ok chain) : chainIn ds name = chain := by
  rw [chainIn, h]
  rfl

theorem Closes.addsChain (h : Closes ds name) : AddsChain ds name := by
  induction h with
  | @intro name d hd hsupers ih =>
      intro depth above chain hline hdeep hclosed
      have hcloses : Closes ds name := .intro hd hsupers
      have hchain : chainOf ds name = .ok (merged (chainIn ds) [name] d.supertypes) :=
        chainOf_of_adds hd ih
      have habove : name ∉ above := fun hmem => hcloses.grounded.acyclic (hline.inherits name hmem)
      cases depth with
      | zero => exact absurd hline.length_le (by omega)
      | succ depth =>
          by_cases hname : name ∈ chain
          · -- the chain is there already, so nothing is added
            have hnone : (chainIn ds name).filter (· ∉ chain) = [] := by
              rw [List.filter_eq_nil_iff]
              intro t ht
              rw [chainIn_eq hchain] at ht
              have hinherits := (mem_chainOf_iff hchain).mp ht
              simpa using hclosed.mem_of_inherits hcloses hline.inherits hname hinherits
            rw [extendChain, if_neg habove, if_pos hname, hnone, List.append_nil]
          · have hself : [name].filter (· ∉ chain) = [name] := by simp [hname]
            rw [extendChain_of_new hd habove hname, chainIn_eq hchain, ← merged_append_filter, hself]
            apply foldlM_extendChain ih (fun s hs => hline.cons habove ⟨d, hd, hs⟩) _
              (hclosed.enter name)
            rw [List.length_cons]
            omega

theorem Closes.chainOf_eq (h : Closes ds name) : chainOf ds name = .ok (chainIn ds name) := by
  cases h with
  | intro hd hsupers =>
      have hchain := chainOf_of_adds hd fun s hs => (hsupers s hs).addsChain
      rw [chainIn_eq hchain, hchain]

/-- A chain is the type itself and then the chains of its direct supertypes, merged in the
order in which these are listed. -/
theorem Closes.chainIn_eq_merged (h : Closes ds name) {d : TypeDef}
    (hd : findDefinition? ds name = some d) :
    chainIn ds name = merged (chainIn ds) [name] d.supertypes :=
  chainIn_eq (chainOf_of_adds hd fun _ hs => (h.of_extends ⟨d, hd, hs⟩).addsChain)

theorem grounded_of_chainOf (h : chainOf ds name = .ok chain) :
    Grounded ds name := by
  have hf : Follows ds [] [] [name] chain := follows_extendChain h
  exact hf.grounded (by simp [GroundedBut]) name (hf.adds List.mem_cons_self) (by simp)

theorem grounded_of_accepted (h : ofDefinitions ds = .ok m) {d : TypeDef} (hd : d ∈ ds) :
    Grounded ds d.name := by
  have hacceptable := exists_ofDefinitions_iff.mp ⟨m, h⟩
  obtain ⟨chain, hchain⟩ := hacceptable.exists_chainOf (List.mem_map_of_mem hd)
  exact grounded_of_chainOf hchain

theorem closes_of_accepted (h : ofDefinitions ds = .ok m) {d : TypeDef} (hd : d ∈ ds) :
    Closes ds d.name :=
  (grounded_of_accepted h hd).closes (List.mem_map_of_mem hd)
    (exists_ofDefinitions_iff.mp ⟨m, h⟩).supertypes_declared

theorem supertypes_eq_chainIn (h : ofDefinitions ds = .ok m) {d : TypeDef} (hd : d ∈ ds) :
    m.supertypes d.name = chainIn ds d.name := by
  obtain ⟨zipped, hl⟩ := lists_of_accepted h
  have hdeclares : m.declares d.name = true := by
    rw [← mem_typeNames_iff, hl.typeNames_eq_names]
    exact List.mem_map_of_mem hd
  exact Except.ok.inj ((hl.chainOf_eq hdeclares).symm.trans (closes_of_accepted h hd).chainOf_eq)

/-- The same for the chains of an accepted schema. -/
theorem supertypes_eq_merged (h : ofDefinitions ds = .ok m) {d : TypeDef} (hd : d ∈ ds) :
    m.supertypes d.name = merged m.supertypes [d.name] d.supertypes := by
  have hacceptable := exists_ofDefinitions_iff.mp ⟨m, h⟩
  have hdeclared : findDefinition? ds d.name = some d :=
    (findDefinition?_eq_some_iff hacceptable.types_nodup).mpr ⟨hd, rfl⟩
  rw [supertypes_eq_chainIn h hd, (closes_of_accepted h hd).chainIn_eq_merged hdeclared]
  apply merged_congr
  intro s hs
  obtain ⟨e, he, rfl⟩ := List.mem_map.mp (hacceptable.supertypes_declared d hd s hs)
  exact (supertypes_eq_chainIn h he).symm

end

/-! ## Subtypes before supertypes -/

/-- `x` is a proper subtype of `y`. -/
def Below (m : Schema) (x y : TypeName) : Prop :=
  x ≠ y ∧ m.fits x y = true

instance (m : Schema) (x y : TypeName) : Decidable (m.Below x y) :=
  inferInstanceAs (Decidable (_ ∧ _))

/-- No type of the chain stands before one of its own subtypes. -/
def SubtypesFirst (m : Schema) (t : TypeName) : Prop :=
  (m.supertypes t).Pairwise fun y x => ¬ m.Below x y

instance (m : Schema) (t : TypeName) : Decidable (m.SubtypesFirst t) :=
  inferInstanceAs (Decidable (List.Pairwise _ _))

/-- No direct supertype brings in a subtype of what those listed before it have brought
in. -/
def SpecificFirst (m : Schema) (ds : List TypeDef) : Prop :=
  ∀ d ∈ ds, ∀ earlier s later, d.supertypes = earlier ++ s :: later →
    ∀ x y, m.fits s x = true → m.Below x y → (∃ r ∈ earlier, m.fits r y = true) →
      ∃ r ∈ earlier, m.fits r x = true

section

variable {ds : List TypeDef} {m : Schema} {x y : TypeName}

theorem mem_supertypes {t : TypeName} : x ∈ m.supertypes t ↔ m.fits t x = true :=
  decide_eq_true_iff.symm

/-- Nothing that a direct supertype brings in fits the type itself. -/
theorem not_fits_of_supertype (h : ofDefinitions ds = .ok m) {d : TypeDef} (hd : d ∈ ds)
    {s : TypeName} (hs : s ∈ d.supertypes) (hsx : m.fits s x = true) :
    ¬ m.fits x d.name = true := by
  intro hxd
  obtain ⟨zipped, hl⟩ := lists_of_accepted h
  have hacceptable := exists_ofDefinitions_iff.mp ⟨m, h⟩
  have hdeclared : findDefinition? ds d.name = some d :=
    (findDefinition?_eq_some_iff hl.nodup).mpr ⟨hd, rfl⟩
  have hdx : TransGen (Extends ds) d.name x := .head' ⟨d, hdeclared, hs⟩ (hl.fits_iff.mp hsx).2
  exact hacceptable.acyclic d.name (hdx.trans_left (hl.fits_iff.mp hxd).2)

/-- One direct supertype after another, subtypes stay first. -/
theorem subtypesFirst_merged (h : ofDefinitions ds = .ok m) (hfirst : m.SpecificFirst ds)
    {d : TypeDef} (hd : d ∈ ds) (hsupers : ∀ s ∈ d.supertypes, m.SubtypesFirst s) :
    ∀ {earlier}, earlier <+: d.supertypes →
      (merged m.supertypes [d.name] earlier).Pairwise fun y x => ¬ m.Below x y := by
  intro earlier
  induction earlier using List.reverseRecOn with
  | nil => exact fun _ => List.pairwise_singleton _ _
  | append_singleton earlier s ih =>
      rintro ⟨later, hlater⟩
      have hsplit : d.supertypes = earlier ++ s :: later := by rw [← hlater]; simp
      have hs : s ∈ d.supertypes := by rw [hsplit]; simp
      rw [merged_snoc, List.pairwise_append]
      refine ⟨ih ⟨s :: later, hsplit.symm⟩, (hsupers s hs).sublist List.filter_sublist, ?_⟩
      intro y hy x hx hbelow
      obtain ⟨hsx, hnew⟩ := List.mem_filter.mp hx
      rw [mem_supertypes] at hsx
      rcases mem_merged.mp hy with hy | ⟨r, hr, hy⟩
      · rw [List.mem_singleton.mp hy] at hbelow
        exact not_fits_of_supertype h hd hs hsx hbelow.2
      · -- `x` is below what `r` has brought in, and so has been brought in before
        obtain ⟨r', hr', hx'⟩ :=
          hfirst d hd earlier s later hsplit x y hsx hbelow ⟨r, hr, mem_supertypes.mp hy⟩
        have hmem : x ∈ merged m.supertypes [d.name] earlier :=
          mem_merged.mpr (.inr ⟨r', hr', mem_supertypes.mpr hx'⟩)
        exact of_decide_eq_true hnew hmem

theorem subtypesFirst_of_specificFirst (h : ofDefinitions ds = .ok m)
    (hfirst : m.SpecificFirst ds) {d : TypeDef} (hd : d ∈ ds) : m.SubtypesFirst d.name := by
  suffices go : ∀ t, Grounded ds t → ∀ d ∈ ds, d.name = t → m.SubtypesFirst t from
    go d.name (grounded_of_accepted h hd) d hd rfl
  intro t hground
  induction hground with
  | intro t _ ih =>
      rintro d hd rfl
      obtain ⟨zipped, hl⟩ := lists_of_accepted h
      have hacceptable := exists_ofDefinitions_iff.mp ⟨m, h⟩
      rw [SubtypesFirst, supertypes_eq_merged h hd]
      apply subtypesFirst_merged h hfirst hd _ (List.prefix_refl _)
      intro s hs
      obtain ⟨e, he, rfl⟩ := List.mem_map.mp (hacceptable.supertypes_declared d hd s hs)
      have hextends : Extends ds d.name e.name :=
        ⟨d, (findDefinition?_eq_some_iff hl.nodup).mpr ⟨hd, rfl⟩, hs⟩
      exact ih e.name hextends e he rfl

/-- Subtypes come first in every chain exactly if no list of direct supertypes brings in a
subtype of what it has brought in before. -/
theorem specificFirst_iff (h : ofDefinitions ds = .ok m) :
    m.SpecificFirst ds ↔ ∀ d ∈ ds, m.SubtypesFirst d.name := by
  constructor
  · exact fun hfirst d hd => subtypesFirst_of_specificFirst h hfirst hd
  · intro hchains d hd earlier s later hsplit x y hsx hbelow hy
    obtain ⟨r, hr, hry⟩ := hy
    have hchain : m.SubtypesFirst d.name := hchains d hd
    rw [SubtypesFirst, supertypes_eq_merged h hd, hsplit, List.append_cons, merged_append] at hchain
    -- what stands up to `s` in the chain of `d`
    have hstart := hchain.sublist prefix_merged.sublist
    rw [merged_snoc, List.pairwise_append] at hstart
    obtain ⟨-, -, hcross⟩ := hstart
    have hy : y ∈ merged m.supertypes [d.name] earlier :=
      mem_merged.mpr (.inr ⟨r, hr, mem_supertypes.mpr hry⟩)
    by_contra hnone
    have hnew : x ∉ merged m.supertypes [d.name] earlier := by
      intro hx
      rcases mem_merged.mp hx with hx | ⟨r', hr', hx⟩
      · have hs : s ∈ d.supertypes := by rw [hsplit]; simp
        rw [List.mem_singleton.mp hx] at hsx
        have hself : m.fits d.name d.name = true :=
          (coherent_of_accepted h).fits_refl ((coherent_of_accepted h).declares_right hsx)
        exact not_fits_of_supertype h hd hs hsx hself
      · exact hnone ⟨r', hr', mem_supertypes.mp hx⟩
    have hx : x ∈ (m.supertypes s).filter (· ∉ merged m.supertypes [d.name] earlier) :=
      List.mem_filter.mpr ⟨mem_supertypes.mpr hsx, decide_eq_true hnew⟩
    exact hcross y hy x hx hbelow

end

end IndexSync.Schema
