import IndexSync.Proofs.Mapping.Inverses

/-!
# The table of declared pairs

Which pairs of paths can be declared together, and what the table of them says.

- `InversePair.Resolves` — the forward path of a pair leads from a known type to objects.
- `Declarations.Consistent` — no two pairs, each read in either direction, give different
  far sides to the same properties of a type.
- `InverseTable.ToldBy` — what the table says, a declared pair says.  Entering a pair keeps
  it so; while it is so, only an inconsistency can stand in the way of the next pair.
- `InverseTable.register_eq_ok_iff`, `InverseTable.register_involutive` — when there is a
  table, and that it leads back wherever it leads.

The order of the pairs, the side that each of them is written from and how often it is
repeated make no difference.
-/

namespace IndexSync

variable {m : Schema} {ds ds' : Declarations}

/-- The forward path of the pair leads from a known type to objects. -/
def InversePair.Resolves (m : Schema) (d : InversePair) : Prop :=
  m.declares d.owner = true ∧ ∃ steps, elaborateText m d.owner d.path .objects = .ok steps

/-- All that is said about properties of a type is the same. -/
def Declarations.Consistent (ds : Declarations) : Prop :=
  ∀ d d', ds.Pairs d → ds.Pairs d' → ∀ type names side side',
    d.Gives type names side → d'.Gives type names side' → side = side'

/-- What the table says, a declared pair says. -/
def InverseTable.ToldBy (t : InverseTable) (ds : Declarations) : Prop :=
  ∀ type names side, t.find? type names = some side → ∃ d, ds.Pairs d ∧ d.Gives type names side

theorem Declarations.Pairs.swap {d : InversePair} (h : ds.Pairs d) : ds.Pairs d.swap :=
  Or.symm h

/-- The far side of a pair, looked at from there, is the near one. -/
theorem InversePair.Gives.swap {d : InversePair} {type : TypeName} {names : String}
    {side : FarSide} (h : d.Gives type names side) :
    ∃ back, d.swap.Gives side.owner side.path.names back ∧ back.owner = type ∧
      back.path.names = names := by
  obtain ⟨owner, path⟩ := side
  obtain ⟨⟨rfl, forward, hforward, rfl⟩, rfl, hback⟩ := h
  exact ⟨{ owner := d.owner, path := forward }, ⟨⟨rfl, path, hback, rfl⟩, rfl, hforward⟩, rfl, rfl⟩

namespace InverseTable

variable {t t' : InverseTable}

/-! ## Entering consistent pairs -/

theorem exists_enter_of_consistent (hds : ds.Consistent)
    (hresolves : ∀ d, ds.Pairs d → d.Resolves m) (ht : t.ToldBy ds) {d : InversePair}
    (hd : ds.Pairs d) :
    ∃ t', t.enter m d.owner d.path d.inverseOwner d.inversePath = .ok t' ∧ t'.ToldBy ds := by
  obtain ⟨hdeclared, steps, hsteps⟩ := hresolves d hd
  obtain ⟨-, steps', hsteps'⟩ := hresolves d.swap hd.swap
  obtain ⟨forward, hforward, hsteps⟩ := elaborateText_eq_ok_iff.mp hsteps
  obtain ⟨back, hback, -⟩ := elaborateText_eq_ok_iff.mp hsteps'
  have hgives : d.Gives d.owner forward.names { owner := d.inverseOwner, path := back } :=
    ⟨⟨rfl, forward, hforward, rfl⟩, rfl, hback⟩
  have hagrees : ∀ known, t.find? d.owner forward.names = some known →
      known = { owner := d.inverseOwner, path := back } := by
    intro known hknown
    obtain ⟨d', hd', hgives'⟩ := ht _ _ _ hknown
    exact hds d' d hd' hd _ _ _ _ hgives' hgives
  obtain ⟨t', henter⟩ := exists_enter hdeclared hforward hsteps hback hagrees
  refine ⟨t', henter, fun type names side hside => ?_⟩
  obtain ⟨-, -, honly⟩ := enter_spec henter
  rcases honly type names side hside with hbefore | hadded
  · exact ht type names side hbefore
  · exact ⟨d, hd, hadded⟩

theorem exists_enterBoth_of_consistent (hds : ds.Consistent)
    (hresolves : ∀ d, ds.Pairs d → d.Resolves m) (ht : t.ToldBy ds) {d : InversePair}
    (hd : ds.Pairs d) : ∃ t', t.enterBoth m d = .ok t' ∧ t'.ToldBy ds := by
  obtain ⟨mid, hfirst, hmid⟩ := exists_enter_of_consistent hds hresolves ht hd
  obtain ⟨t', hsecond, ht'⟩ := exists_enter_of_consistent hds hresolves hmid hd.swap
  exact ⟨t', Except.bind_eq_ok.mpr ⟨mid, hfirst, hsecond⟩, ht'⟩

/-- Consistent pairs with usable paths have a table. -/
theorem exists_register (hresolves : ∀ d, ds.Pairs d → d.Resolves m) (hds : ds.Consistent) :
    ∃ t, register m ds.inverses = .ok t := by
  suffices go : ∀ pairs ⊆ ds.inverses, ∀ start : InverseTable, start.ToldBy ds →
      ∃ t, pairs.foldlM (enterBoth m) start = .ok t from
    go ds.inverses (List.Subset.refl _) empty nofun
  intro pairs
  induction pairs with
  | nil =>
      intro _ start _
      exact ⟨start, rfl⟩
  | cons d pairs ih =>
      intro hsub start hstart
      obtain ⟨hd, hrest⟩ := List.cons_subset.mp hsub
      obtain ⟨mid, hmid, htold⟩ :=
        exists_enterBoth_of_consistent hds hresolves hstart (.inl hd)
      obtain ⟨t, ht⟩ := ih hrest mid htold
      exact ⟨t, List.foldlM_cons_eq_ok.mpr ⟨mid, hmid, ht⟩⟩

/-! ## The table of all pairs -/

theorem declares_of_register (h : register m ds.inverses = .ok t) {d : InversePair}
    (hd : ds.Pairs d) : m.declares d.owner = true := by
  suffices go : ∀ (pairs : List InversePair) (start : InverseTable),
      pairs.foldlM (enterBoth m) start = .ok t →
      ∀ d ∈ pairs, m.declares d.owner = true ∧ m.declares d.inverseOwner = true by
    rcases hd with hd | hd
    · exact (go _ _ h d hd).1
    · exact (go _ _ h d.swap hd).2
  intro pairs
  induction pairs with
  | nil =>
      intro _ _
      exact List.forall_mem_nil _
  | cons d' pairs ih =>
      intro start h
      obtain ⟨mid, hmid, h⟩ := List.foldlM_cons_eq_ok.mp h
      obtain ⟨_, hfirst, hsecond⟩ := Except.bind_eq_ok.mp hmid
      rw [List.forall_mem_cons]
      exact ⟨⟨(enter_eq_ok_iff.mp hfirst).1, (enter_eq_ok_iff (d := d'.swap).mp hsecond).1⟩,
        ih mid h⟩

/-- The table says what the declared pairs say. -/
theorem find?_eq_some_iff (h : register m ds.inverses = .ok t) {type : TypeName} {names : String}
    {side : FarSide} :
    t.find? type names = some side ↔ ∃ d, ds.Pairs d ∧ d.Gives type names side := by
  constructor
  · intro hside
    exact exists_pair_of_find? h hside
  · rintro ⟨d, hd, hgives⟩
    exact (holds_of_pairs h hd).find?_of_gives hgives

theorem resolves_of_register (h : register m ds.inverses = .ok t) {d : InversePair}
    (hd : ds.Pairs d) : d.Resolves m := by
  obtain ⟨forward, steps, back, hforward, hsteps, -, -⟩ := holds_of_pairs h hd
  exact ⟨declares_of_register h hd, steps, elaborateText_eq_ok_iff.mpr ⟨forward, hforward, hsteps⟩⟩

theorem consistent_of_register (h : register m ds.inverses = .ok t) : ds.Consistent := by
  intro d d' hd hd' type names side side' hgives hgives'
  have hside := (find?_eq_some_iff h).mpr ⟨d, hd, hgives⟩
  have hside' := (find?_eq_some_iff h).mpr ⟨d', hd', hgives'⟩
  exact Option.some.inj (hside.symm.trans hside')

/-- There is a table when all paths can be used and no two pairs contradict each other. -/
theorem register_eq_ok_iff :
    (∃ t, register m ds.inverses = .ok t) ↔
      (∀ d, ds.Pairs d → d.Resolves m) ∧ ds.Consistent := by
  constructor
  · rintro ⟨t, h⟩
    exact ⟨fun d hd => resolves_of_register h hd, consistent_of_register h⟩
  · rintro ⟨hresolves, hds⟩
    exact exists_register hresolves hds

/-- The same pairs make a table that answers alike, whatever their order is, from whichever
side they are written and however often. -/
theorem exists_register_of_same (hsame : ∀ d, ds'.Pairs d ↔ ds.Pairs d)
    (h : register m ds.inverses = .ok t) :
    ∃ t', register m ds'.inverses = .ok t' ∧ t'.find? = t.find? := by
  have htable : (∀ d, ds'.Pairs d → d.Resolves m) ∧ ds'.Consistent := by
    simp only [Declarations.Consistent, hsame]
    exact register_eq_ok_iff.mp ⟨t, h⟩
  obtain ⟨t', h'⟩ := register_eq_ok_iff.mpr htable
  refine ⟨t', h', ?_⟩
  ext type names side
  rw [find?_eq_some_iff h, find?_eq_some_iff h']
  simp only [hsame]

/-- Where the table leads, it leads back, to a path that reads the same properties. -/
theorem find?_back (h : register m ds.inverses = .ok t) {type : TypeName} {names : String}
    {side : FarSide} (hside : t.find? type names = some side) :
    ∃ back, t.find? side.owner side.path.names = some back ∧ back.owner = type ∧
      back.path.names = names := by
  obtain ⟨d, hd, hgives⟩ := (find?_eq_some_iff h).mp hside
  obtain ⟨back, hback, howner, hnames⟩ := hgives.swap
  exact ⟨back, (find?_eq_some_iff h).mpr ⟨d.swap, hd.swap, hback⟩, howner, hnames⟩

/-- Pairs of paths have a table exactly if their paths can be used and none of them, read
in either direction, contradicts another.  The table says what they say, and leads back
wherever it leads.  Only what the pairs are counts, not how they are written. -/
theorem register_involutive (m : Schema) (ds : Declarations) :
    ((∃ t, register m ds.inverses = .ok t) ↔
      (∀ d, ds.Pairs d → d.Resolves m) ∧ ds.Consistent) ∧
    (∀ t, register m ds.inverses = .ok t →
      (∀ type names side, t.find? type names = some side ↔
        ∃ d, ds.Pairs d ∧ d.Gives type names side) ∧
      ∀ type names side, t.find? type names = some side →
        ∃ back, t.find? side.owner side.path.names = some back ∧ back.owner = type ∧
          back.path.names = names) ∧
    ∀ ds' : Declarations, (∀ d, ds'.Pairs d ↔ ds.Pairs d) →
      (register m ds'.inverses).toOption.map find? =
        (register m ds.inverses).toOption.map find? := by
  refine ⟨register_eq_ok_iff, fun t ht => ⟨fun type names side => find?_eq_some_iff ht,
    fun type names side hside => find?_back ht hside⟩, fun ds' hsame => ?_⟩
  cases htable : register m ds.inverses with
  | ok t =>
      obtain ⟨t', ht', hfind⟩ := exists_register_of_same hsame htable
      rw [ht']
      exact congrArg some hfind
  | error e =>
      cases htable' : register m ds'.inverses with
      | error e' => rfl
      | ok t' =>
          obtain ⟨t, ht, -⟩ := exists_register_of_same (fun d => (hsame d).symm) htable'
          cases htable.symm.trans ht

theorem register_involutive_rankings :
    (∃ t, register Sample.rankingsSchema Sample.rankings.mapping.inverses = .ok t) ∧
    (∀ d, Sample.rankings.mapping.Pairs d → d.Resolves Sample.rankingsSchema) ∧
    Sample.rankings.mapping.Consistent ∧
    (register Sample.rankingsSchema
      [Sample.ranksPair.swap, Sample.ranksPair, Sample.ranksPair]).toOption.map find? =
        (register Sample.rankingsSchema Sample.rankings.mapping.inverses).toOption.map find? := by
  obtain ⟨htable, -, hsame⟩ :=
    register_involutive Sample.rankingsSchema Sample.rankings.mapping
  have hregister :=
    Except.eq_ok_value (x := register Sample.rankingsSchema Sample.rankings.mapping.inverses)
      (by decide +kernel)
  obtain ⟨hresolves, hconsistent⟩ := htable.mp ⟨_, hregister⟩
  refine ⟨⟨_, hregister⟩, hresolves, hconsistent, ?_⟩
  refine hsame { types := [], inverses := [Sample.ranksPair.swap, Sample.ranksPair,
    Sample.ranksPair] } fun d => ?_
  have hswap : d = Sample.ranksPair.swap ↔ d.swap = Sample.ranksPair :=
    ⟨congrArg InversePair.swap, congrArg InversePair.swap⟩
  have hswap' : d.swap = Sample.ranksPair.swap ↔ d = Sample.ranksPair :=
    ⟨congrArg InversePair.swap, congrArg InversePair.swap⟩
  simp only [Declarations.Pairs, paths_rankings.2.1, List.mem_cons, List.not_mem_nil, or_false,
    hswap, hswap']
  tauto

/-- Keys and values cannot both lead back from a home. -/
example : (register Sample.rankingsSchema
    [Sample.ranksPair, { Sample.ranksPair with path := "ranks[values]" }]).isOk = false := by
  decide +kernel

end InverseTable

end IndexSync
