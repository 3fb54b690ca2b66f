import IndexSync.Proofs.Mapping.Closure
import IndexSync.Proofs.Mapping.Facts
import IndexSync.Proofs.Mapping.Tracing
import IndexSync.Proofs.Path.Names
import IndexSync.Sample.Rankings

/-!
# The inverse side behind a backlink

A declared pair of paths is found by the names of the properties that its forward path
reads.  What it says about containers and casts is not compared.

- `Supplies` — the pair that a backlink over an association comes from.
- `InverseTable.holds_of_pairs`, `InverseTable.exists_pair_of_find?` — the table holds the
  declared pairs, in both directions, and nothing else; so backlinks come from pairs, and
  from nothing else (`exists_supplies`, `Supplies.backs`).
- `TypedStep.AsWide`, `stepsLead_of_asWide` — what has to be alike for the forward path of
  a pair to lead wherever an association does.
- `exists_supplies_of_crossing` — the pairs behind the associations that documents cross.
-/

namespace IndexSync

variable {schema m : Schema} {ds : Declarations} {table : InverseTable}

/-- The pair read from the other side. -/
def InversePair.swap (d : InversePair) : InversePair where
  owner := d.inverseOwner
  path := d.inversePath
  inverseOwner := d.owner
  inversePath := d.path

/-- A declared pair, read in either direction. -/
def Declarations.Pairs (ds : Declarations) (d : InversePair) : Prop :=
  d ∈ ds.inverses ∨ d.swap ∈ ds.inverses

/-- The forward path of the pair reads these properties of the type. -/
def InversePair.Reads (d : InversePair) (type : TypeName) (names : String) : Prop :=
  d.owner = type ∧ ∃ forward, parsePath d.owner d.path = .ok forward ∧ forward.names = names

/-- The backlink over the association that the segment crosses comes from the pair. -/
structure Supplies (m : Schema) (ds : Declarations) (d : InversePair) (seg : Segment)
    (link : Backlink) : Prop where
  declared : ds.Pairs d
  reads : d.Reads d.owner seg.names
  /-- No type nearer to the owner of the association has a pair for it. -/
  nearest : ∃ nearer further, m.supertypes seg.owner = nearer ++ d.owner :: further ∧
    ∀ type ∈ nearer, ∀ d', ds.Pairs d' → ¬ d'.Reads type seg.names
  links : ∃ back, parsePath d.inverseOwner d.inversePath = .ok back ∧
    ∃ target ∈ seg.target,
      linkAlong m seg.owner seg.names target { owner := d.inverseOwner, path := back } = .ok link

/-- The first step opens containers as the second does, and narrows no further. -/
def TypedStep.AsWide (m : Schema) (first second : TypedStep) : Prop :=
  first.extractors = second.extractors ∧
    ∀ wide ∈ first.cast, ∃ narrow ∈ second.cast, m.fits narrow wide = true

/-! ## The table of declared pairs -/

theorem requireDeclared_eq_ok {name : TypeName} :
    requireDeclared m name = .ok () ↔ m.declares name = true := by
  unfold requireDeclared
  split <;> simp_all

/-- The table answers for the pair. -/
def InverseTable.Holds (m : Schema) (t : InverseTable) (d : InversePair) : Prop :=
  ∃ forward steps back, parsePath d.owner d.path = .ok forward ∧
    forward.elaborate m d.owner .objects = .ok steps ∧
    parsePath d.inverseOwner d.inversePath = .ok back ∧
    t.find? d.owner forward.names = some { owner := d.inverseOwner, path := back }

/-- The pair gives this far side to these properties of the type. -/
def InversePair.Gives (d : InversePair) (type : TypeName) (names : String) (side : FarSide) : Prop :=
  d.Reads type names ∧ side.owner = d.inverseOwner ∧
    parsePath d.inverseOwner d.inversePath = .ok side.path

namespace InverseTable

/-- What is found in a table is found in the other one. -/
def Within (t t' : InverseTable) : Prop :=
  ∀ type names side, t.find? type names = some side → t'.find? type names = some side

theorem Holds.within {t t' : InverseTable} {d : InversePair} (h : t.Holds m d)
    (hwithin : t.Within t') : t'.Holds m d := by
  obtain ⟨forward, steps, back, hforward, hsteps, hback, hfind⟩ := h
  exact ⟨forward, steps, back, hforward, hsteps, hback, hwithin _ _ _ hfind⟩

theorem Holds.find?_of_gives {t : InverseTable} {d : InversePair} (h : t.Holds m d)
    {type : TypeName} {names : String} {side : FarSide} (hgives : d.Gives type names side) :
    t.find? type names = some side := by
  obtain ⟨forward, steps, back, hforward, -, hback, hfind⟩ := h
  obtain ⟨owner, path⟩ := side
  obtain ⟨⟨rfl, forward', hforward', rfl⟩, rfl, hback'⟩ := hgives
  cases hforward.symm.trans hforward'
  cases hback.symm.trans hback'
  exact hfind

theorem Within.trans {t t' t'' : InverseTable} (h : t.Within t') (h' : t'.Within t'') :
    t.Within t'' :=
  fun _ _ _ hside => h' _ _ _ (h _ _ _ hside)

theorem find?_snoc (t : InverseTable) (key : TypeName × String) (side : FarSide)
    (type : TypeName) (names : String) :
    ({ entries := t.entries ++ [(key, side)] } : InverseTable).find? type names =
      (t.find? type names).or (if (type, names) = key then some side else none) := by
  unfold find?
  rw [List.lookup_append]
  by_cases h : (type, names) = key
  · rw [if_pos h, h, List.lookup_cons_self]
  · rw [if_neg h, List.lookup_cons, beq_false_of_ne h]
    rfl

/-- A pair is entered when its paths can be used and the table does not say otherwise. -/
theorem enter_eq_ok_iff {t t' : InverseTable} {d : InversePair} :
    t.enter m d.owner d.path d.inverseOwner d.inversePath = .ok t' ↔
      m.declares d.owner = true ∧ ∃ forward steps back, parsePath d.owner d.path = .ok forward ∧
        forward.elaborate m d.owner .objects = .ok steps ∧
        parsePath d.inverseOwner d.inversePath = .ok back ∧
        (t.find? d.owner forward.names = none ∧ t' = { entries := t.entries ++
            [((d.owner, forward.names), { owner := d.inverseOwner, path := back })] } ∨
          t.find? d.owner forward.names = some { owner := d.inverseOwner, path := back } ∧
            t' = t) := by
  rw [enter, Except.check_bind_eq_ok, requireDeclared_eq_ok, Except.bind_eq_ok]
  apply and_congr_right
  intro _
  apply exists_congr
  intro forward
  cases hsteps : forward.elaborate m d.owner .objects with
  | error e => simp
  | ok steps =>
      simp only [Except.bind_eq_ok, Except.ok.injEq, exists_and_left, exists_eq_left']
      apply and_congr_right
      intro _
      apply exists_congr
      intro back
      apply and_congr_right
      intro _
      cases hknown : t.find? d.owner forward.names with
      | none => simp [Except.pure_eq_ok, @eq_comm _ t']
      | some known =>
          by_cases hsame : known = { owner := d.inverseOwner, path := back }
          · simp [hsame, Except.pure_eq_ok, @eq_comm _ t']
          · simp [hsame]

/-- A pair whose paths can be used is entered unless the table contradicts it. -/
theorem exists_enter {t : InverseTable} {d : InversePair} {forward back : Path}
    {steps : List TypedStep} (hdeclared : m.declares d.owner = true)
    (hforward : parsePath d.owner d.path = .ok forward)
    (hsteps : forward.elaborate m d.owner .objects = .ok steps)
    (hback : parsePath d.inverseOwner d.inversePath = .ok back)
    (hagrees : ∀ known, t.find? d.owner forward.names = some known →
      known = { owner := d.inverseOwner, path := back }) :
    ∃ t', t.enter m d.owner d.path d.inverseOwner d.inversePath = .ok t' := by
  simp only [enter_eq_ok_iff]
  cases hknown : t.find? d.owner forward.names with
  | none => exact ⟨_, hdeclared, forward, steps, back, hforward, hsteps, hback, .inl ⟨hknown, rfl⟩⟩
  | some known =>
      cases hagrees known hknown
      exact ⟨t, hdeclared, forward, steps, back, hforward, hsteps, hback, .inr ⟨hknown, rfl⟩⟩

/-- The table answers for a pair entered, and otherwise as before. -/
theorem enter_spec {t t' : InverseTable} {d : InversePair}
    (h : t.enter m d.owner d.path d.inverseOwner d.inversePath = .ok t') :
    t'.Holds m d ∧ t.Within t' ∧
      ∀ type names side, t'.find? type names = some side →
        t.find? type names = some side ∨ d.Gives type names side := by
  obtain ⟨-, forward, steps, back, hforward, hsteps, hback, ⟨hnew, rfl⟩ | ⟨hknown, rfl⟩⟩ :=
    enter_eq_ok_iff.mp h
  · have hfind := find?_snoc t (d.owner, forward.names) { owner := d.inverseOwner, path := back }
    refine ⟨⟨forward, steps, back, hforward, hsteps, hback, ?_⟩, ?_, ?_⟩
    · rw [hfind, hnew, if_pos rfl]
      rfl
    · intro type names side hside
      rw [hfind, hside]
      rfl
    · intro type names side hside
      rw [hfind] at hside
      have hfound := (Option.or_eq_some_iff.mp hside).imp_right fun h =>
        Option.ite_none_right_eq_some.mp h.2
      rcases hfound with hbefore | ⟨hkey, hadded⟩
      · exact .inl hbefore
      · cases hkey
        cases hadded
        exact .inr ⟨⟨rfl, forward, hforward, rfl⟩, rfl, hback⟩
  · exact ⟨⟨forward, steps, back, hforward, hsteps, hback, hknown⟩, fun _ _ _ => id,
      fun _ _ _ => .inl⟩

theorem enterBoth_spec {t t' : InverseTable} {d : InversePair}
    (h : t.enterBoth m d = .ok t') :
    t'.Holds m d ∧ t'.Holds m d.swap ∧ t.Within t' ∧
      ∀ type names side, t'.find? type names = some side →
        t.find? type names = some side ∨ d.Gives type names side ∨ d.swap.Gives type names side := by
  obtain ⟨mid, hfirst, hsecond⟩ := Except.bind_eq_ok.mp h
  obtain ⟨hholds, hwithin, honly⟩ := enter_spec hfirst
  obtain ⟨hholds', hwithin', honly'⟩ := enter_spec (d := d.swap) hsecond
  refine ⟨hholds.within hwithin', hholds', hwithin.trans hwithin', ?_⟩
  intro type names side hside
  rcases honly' type names side hside with hside | hgives
  · rcases honly type names side hside with hside | hgives
    · exact .inl hside
    · exact .inr (.inl hgives)
  · exact .inr (.inr hgives)

/-- The table holds every declared pair, in both directions, and nothing else. -/
theorem foldlM_enterBoth_spec {pairs : List InversePair} {t t' : InverseTable}
    (h : pairs.foldlM (enterBoth m) t = .ok t') :
    (∀ d ∈ pairs, t'.Holds m d ∧ t'.Holds m d.swap) ∧ t.Within t' ∧
      ∀ type names side, t'.find? type names = some side →
        t.find? type names = some side ∨
          ∃ d ∈ pairs, d.Gives type names side ∨ d.swap.Gives type names side := by
  induction pairs generalizing t with
  | nil =>
      cases List.foldlM_nil_eq_ok.mp h
      exact ⟨List.forall_mem_nil _, fun _ _ _ => id, fun _ _ _ => .inl⟩
  | cons d pairs ih =>
      obtain ⟨mid, hmid, h⟩ := List.foldlM_cons_eq_ok.mp h
      obtain ⟨hholds, hswap, hwithin, honly⟩ := enterBoth_spec hmid
      obtain ⟨hrest, hwithin', honly'⟩ := ih h
      refine ⟨?_, hwithin.trans hwithin', ?_⟩
      · rw [List.forall_mem_cons]
        exact ⟨⟨hholds.within hwithin', hswap.within hwithin'⟩, hrest⟩
      · intro type names side hside
        rcases honly' type names side hside with hside | ⟨d', hd', hgives⟩
        · rcases honly type names side hside with hside | hgives
          · exact .inl hside
          · exact .inr ⟨d, List.mem_cons_self, hgives⟩
        · exact .inr ⟨d', List.mem_cons_of_mem _ hd', hgives⟩

theorem holds_of_pairs (htable : register m ds.inverses = .ok table) {d : InversePair}
    (h : ds.Pairs d) : table.Holds m d := by
  obtain ⟨hholds, -, -⟩ := foldlM_enterBoth_spec htable
  rcases h with h | h
  · exact (hholds d h).1
  · exact (hholds d.swap h).2

theorem exists_find?_of_reads (htable : register m ds.inverses = .ok table) {d : InversePair}
    (h : ds.Pairs d) {type : TypeName} {names : String} (hreads : d.Reads type names) :
    ∃ side, table.find? type names = some side := by
  obtain ⟨rfl, forward, hforward, rfl⟩ := hreads
  obtain ⟨forward', steps, back, hforward', -, -, hfind⟩ := holds_of_pairs htable h
  cases hforward.symm.trans hforward'
  exact ⟨_, hfind⟩

theorem exists_pair_of_find? (htable : register m ds.inverses = .ok table) {type : TypeName}
    {names : String} {side : FarSide} (h : table.find? type names = some side) :
    ∃ d, ds.Pairs d ∧ d.Gives type names side := by
  obtain ⟨-, -, honly⟩ := foldlM_enterBoth_spec htable
  rcases honly type names side h with hempty | ⟨d, hd, hgives | hgives⟩
  · cases hempty
  · exact ⟨d, .inl hd, hgives⟩
  · exact ⟨d.swap, .inr hd, hgives⟩

end InverseTable

/-! ## Segments -/

/-- A segment has steps, and they are steps of the path it was cut from. -/
theorem steps_of_mem_cutFrom {crossEnd : Bool} {owner : TypeName} {begun steps : List TypedStep}
    {seg : Segment} (h : seg ∈ cutFrom m crossEnd owner begun steps) :
    seg.steps ≠ [] ∧ seg.steps ⊆ begun ++ steps := by
  induction steps generalizing owner begun with
  | nil =>
      rw [cutFrom] at h
      split at h
      · cases h
      · rename_i hbegun
        cases List.mem_singleton.mp h
        refine ⟨fun hnil => hbegun ?_, List.subset_append_left _ _⟩
        rw [show begun = [] from hnil]
        rfl
  | cons step rest ih =>
      rw [cutFrom] at h
      have happend : begun ++ step :: rest = (begun ++ [step]) ++ rest := by simp
      split at h
      · rw [happend]
        exact ih h
      · rcases List.mem_cons.mp h with rfl | h
        · rw [happend]
          exact ⟨by simp, List.subset_append_left _ _⟩
        · obtain ⟨hne, hsubset⟩ := ih h
          refine ⟨hne, fun s hs => ?_⟩
          rw [happend]
          exact List.mem_append_right _ (hsubset hs)

theorem dotless_of_mem_cut {crossEnd : Bool} {root : TypeName} {steps : List TypedStep}
    {seg : Segment} (hsteps : Dotless (steps.map (·.property)))
    (h : seg ∈ cut m crossEnd root steps) :
    Dotless (seg.steps.map (·.property)) ∧ seg.steps ≠ [] := by
  obtain ⟨hne, hsubset⟩ := steps_of_mem_cutFrom h
  refine ⟨fun name hname => ?_, hne⟩
  obtain ⟨step, hstep, rfl⟩ := List.mem_map.mp hname
  exact hsteps _ (List.mem_map.mpr ⟨step, hsubset hstep, rfl⟩)

/-- The segments of documents read properties without dots in their names. -/
theorem Shows.dotless {segs : List Segment} (h : Shows m ds segs) {seg : Segment}
    (hseg : seg ∈ segs) : Dotless (seg.steps.map (·.property)) ∧ seg.steps ≠ [] := by
  cases h with
  | declared hdeclares =>
      cases hdeclares with
      | read _ _ hsteps => exact dotless_of_mem_cut (dotless_of_elaborateText hsteps) hseg
      | embed _ _ hsteps => exact dotless_of_mem_cut (dotless_of_elaborateText hsteps) hseg
  | used _ _ hsteps => exact dotless_of_mem_cut (dotless_of_elaborateText hsteps) hseg

/-- Triggers are made only if every association crossed has a backlink. -/
theorem exists_backs_of_triggersAlong {whole : TypeName × String} {owner : TypeName}
    {finish : Option TypeName} {segs : List Segment} {chain back : List Backlink}
    {triggers : List Trigger} (htable : InverseTable.register m ds.inverses = .ok table)
    (hjoined : Joined owner segs finish)
    (h : triggersAlong m table whole chain segs = .ok (triggers, back)) {seg : Segment}
    (hseg : seg ∈ segs) (htarget : seg.target.isSome = true) : ∃ link, seg.Backs m ds link := by
  induction hjoined generalizing chain triggers with
  | nil => cases hseg
  | last _ hnone =>
      cases List.mem_singleton.mp hseg
      rw [hnone] at htarget
      cases htarget
  | cross _ hsome _ ih =>
      rcases triggersAlong_cons_eq_ok h with
        ⟨hnone, -, -⟩ | ⟨target, link, rest, ht, hlink, hrest, -⟩
      · cases hnone.symm.trans hsome
      · rcases List.mem_cons.mp hseg with rfl | hseg
        · exact ⟨link, (backs_iff htable ht).mpr hlink⟩
        · exact ih hrest hseg

/-- In a mapping that is accepted, every association crossed has a backlink. -/
theorem Shows.exists_backs {mapping : Mapping schema} {segs : List Segment}
    (hcompile : Mapping.compile schema ds = .ok mapping) (h : Shows schema ds segs)
    {seg : Segment} (hseg : seg ∈ segs) (htarget : seg.target.isSome = true) :
    ∃ link, seg.Backs schema ds link := by
  obtain ⟨F, hfacts, -⟩ := Mapping.eq_of_compile hcompile
  obtain ⟨table, htable, -, -⟩ := facts_eq_ok hfacts
  obtain ⟨root, finish, hjoined⟩ : ∃ root finish, Joined root segs finish := by
    cases h with
    | declared => exact ⟨_, exists_joined_cut⟩
    | used => exact ⟨_, exists_joined_cut⟩
  cases h with
  | declared hdeclares =>
      obtain ⟨triggers, back, hsegments, -, -⟩ :=
        Mapping.facts_of_declares hfacts htable hdeclares
      exact exists_backs_of_triggersAlong htable hjoined hsegments hseg htarget
  | used hdepends hpath hsteps =>
      obtain ⟨-, hused⟩ := Mapping.facts_of_dependsOn hfacts htable hdepends
      obtain ⟨steps, triggers, back, hsteps', hsegments, -⟩ := hused _ hpath
      cases hsteps.symm.trans hsteps'
      exact exists_backs_of_triggersAlong htable hjoined hsegments hseg htarget

/-! ## Pairs behind backlinks -/

/-- A backlink over an association comes from a declared pair. -/
theorem exists_supplies {seg : Segment} {link : Backlink} (h : seg.Backs m ds link) :
    ∃ d, Supplies m ds d seg link := by
  obtain ⟨table, htable, side, hside, target, htarget, hlink⟩ := h
  obtain ⟨nearer, type, further, hsupertypes, hfind, hnearer⟩ :=
    List.findSome?_eq_some_iff.mp hside
  obtain ⟨d, hpairs, hreads, howner, hback⟩ := InverseTable.exists_pair_of_find? htable hfind
  cases hreads.1
  refine ⟨d, hpairs, hreads, ⟨nearer, further, hsupertypes, ?_⟩, side.path, hback, target,
    htarget, ?_⟩
  · intro type htype d' hpairs' hreads'
    obtain ⟨side', hside'⟩ := InverseTable.exists_find?_of_reads htable hpairs' hreads'
    cases hside'.symm.trans (hnearer type htype)
  · rw [← howner]
    exact hlink

theorem Supplies.backs (htable : InverseTable.register m ds.inverses = .ok table)
    {d : InversePair} {seg : Segment} {link : Backlink} (h : Supplies m ds d seg link) :
    seg.Backs m ds link := by
  obtain ⟨nearer, further, hsupertypes, hnearer⟩ := h.nearest
  obtain ⟨back, hback, target, htarget, hlink⟩ := h.links
  obtain ⟨forward, steps, back', hforward, -, hback', hfind⟩ :=
    InverseTable.holds_of_pairs htable h.declared
  obtain ⟨-, forward', hforward', hnames⟩ := h.reads
  cases hforward.symm.trans hforward'
  cases hback.symm.trans hback'
  refine ⟨table, htable, _, ?_, target, htarget, hlink⟩
  refine List.findSome?_eq_some_iff.mpr ⟨nearer, d.owner, further, hsupertypes, ?_, ?_⟩
  · rw [← hnames]
    exact hfind
  · intro type htype
    cases hside : table.find? type seg.names with
    | none => rfl
    | some side =>
        obtain ⟨d', hpairs, hreads, -⟩ := InverseTable.exists_pair_of_find? htable hside
        exact absurd hreads (hnearer type htype d' hpairs)

/-- The forward path of the pair reads the properties that the association reads. -/
theorem Supplies.exists_forward (htable : InverseTable.register m ds.inverses = .ok table)
    {segs : List Segment} (hshows : Shows m ds segs) {seg : Segment} (hseg : seg ∈ segs)
    {link : Backlink} {d : InversePair} (h : Supplies m ds d seg link) :
    ∃ forward, elaborateText m d.owner d.path .objects = .ok forward ∧
      forward.map (·.property) = seg.steps.map (·.property) := by
  obtain ⟨path, steps, back, hpath, hsteps, -, -⟩ := InverseTable.holds_of_pairs htable h.declared
  obtain ⟨-, path', hpath', hnames⟩ := h.reads
  cases hpath.symm.trans hpath'
  obtain ⟨hdotless, hne⟩ := Path.dotless_of_parse (parsePath_eq_ok_iff.mp hpath)
  obtain ⟨hdotless', hne'⟩ := hshows.dotless hseg
  refine ⟨steps, elaborateText_eq_ok_iff.mpr ⟨path, hpath, hsteps⟩, ?_⟩
  rw [Path.properties_of_elaborateSteps hsteps]
  exact eq_of_dotted_eq hdotless hdotless' (by simpa using hne) (by simpa using hne') hnames

/-! ## Where the forward path leads -/

theorem TypedStep.Leads.of_asWide (hm : schema.Coherent) {s : ObjectStore schema}
    {first second : TypedStep} (hproperty : first.property = second.property)
    (h : first.AsWide schema second) {o : ObjectId} {v : Value} (hlead : second.Leads s o v) :
    first.Leads s o v := by
  obtain ⟨u, hread, hnull, hopens, hkeeps⟩ := hlead
  refine ⟨u, hproperty ▸ hread, hnull, h.1 ▸ hopens, fun wide hwide => ?_⟩
  obtain ⟨narrow, hnarrow, hfits⟩ := h.2 wide hwide
  obtain ⟨x, hv, hx⟩ := hkeeps narrow hnarrow
  exact ⟨x, hv, hx.of_fits hm hfits⟩

/-- Steps that read the same properties, as wide as others, lead wherever these lead. -/
theorem stepsLead_of_asWide (hm : schema.Coherent) {s : ObjectStore schema}
    {firsts seconds : List TypedStep} (h : List.Forall₂ (TypedStep.AsWide schema) firsts seconds)
    (hproperties : firsts.map (·.property) = seconds.map (·.property)) {v w : Value}
    (hlead : stepsLead s seconds v w) : stepsLead s firsts v w := by
  induction h generalizing v with
  | nil => exact hlead
  | cons hstep _ ih =>
      obtain ⟨hproperty, hproperties⟩ := List.cons.inj hproperties
      obtain ⟨o, u, hv, hfirst, hrest⟩ := hlead
      exact ⟨o, u, hv, hfirst.of_asWide hm hproperty hstep, ih hproperties hrest⟩

/-! ## Rankings -/

section

open Sample

/-- What is declared about catalogs, with its paths elaborated. -/
theorem paths_rankings :
    rankings.mapping.types = [catalogPart] ∧ rankings.mapping.inverses = [ranksPair] ∧
    rankingsSchema.isEntity "Catalog" = true ∧ rankingsSchema.supertypes "Catalog" = ["Catalog"] ∧
    (elaborateText rankingsSchema "Catalog" (below "" "ranks[keys].name") .anything).toOption =
      some [ranksStep .mapKeys, productName] ∧
    (elaborateText rankingsSchema "Catalog" (below "" "ranks[values].name") .anything).toOption =
      some [ranksStep .mapValues, productName] ∧
    (elaborateText rankingsSchema "Catalog" "ranks[keys]" .objects).toOption =
      some [ranksStep .mapKeys] := by
  decide +kernel

/-- What is stored in the catalog. -/
theorem reads_ranked :
    rankingsSchema.fits "Catalog" "Catalog" = true ∧
    (ranked.runtimeType 3).toOption = some "Catalog" ∧
    (ranked.read 3 "ranks").toOption = some (.map [(.ref 1, .ref 2)]) := by
  decide +kernel

theorem elaborate_ranks : elaborateText rankingsSchema "Catalog" "ranks[keys]" .objects =
    .ok [ranksStep .mapKeys] :=
  Except.eq_ok_of_toOption paths_rankings.2.2.2.2.2.2

theorem inlined_rankings : Inlined rankingsSchema rankings.mapping "Catalog" "" catalogPart :=
  (inlined_iff_of_single paths_rankings.1 paths_rankings.2.2.1).mpr ⟨rfl, rfl, rfl⟩

theorem cut_ranks (extractor : Extractor) :
    cut rankingsSchema false "Catalog" [ranksStep extractor, productName] =
      [ranksSegment extractor, productNameSegment] := by
  cases extractor <;> decide +kernel

/-- Documents show the names of the keys, across an association. -/
theorem shows_keys :
    Shows rankingsSchema rankings.mapping [ranksSegment .mapKeys, productNameSegment] := by
  rw [← cut_ranks]
  exact .declared (.read inlined_rankings List.mem_cons_self
    (Except.eq_ok_of_toOption paths_rankings.2.2.2.2.1))

/-- Documents show the names of the values, too. -/
theorem shows_values :
    Shows rankingsSchema rankings.mapping [ranksSegment .mapValues, productNameSegment] := by
  rw [← cut_ranks]
  exact .declared (.read inlined_rankings (List.mem_cons_of_mem _ List.mem_cons_self)
    (Except.eq_ok_of_toOption paths_rankings.2.2.2.2.2.1))

/-- The forward and the inverse path of the pair, and the backlink along it. -/
theorem links_rankings :
    (parsePath "Catalog" "ranks[keys]").toOption.map Path.names = some "ranks" ∧
    (parsePath "Product" "home").toOption = some { parts := [⟨"home", [], none⟩] } ∧
    (linkAlong rankingsSchema "Catalog" "ranks" "Product"
      { owner := "Product", path := { parts := [⟨"home", [], none⟩] } }).toOption =
        some homeLink := by
  decide +kernel

/-- Both associations have the same backlink, from the pair declared for the keys. -/
theorem supplies_ranks (extractor : Extractor) :
    Supplies rankingsSchema rankings.mapping ranksPair (ranksSegment extractor) homeLink where
  declared := by
    rw [Declarations.Pairs, paths_rankings.2.1]
    exact .inl List.mem_cons_self
  reads := by
    obtain ⟨forward, hforward, hnames⟩ := Option.map_eq_some_iff.mp links_rankings.1
    exact ⟨rfl, forward, Except.eq_ok_of_toOption hforward, hnames⟩
  nearest := ⟨[], [], paths_rankings.2.2.2.1, List.forall_mem_nil _⟩
  links := ⟨_, Except.eq_ok_of_toOption links_rankings.2.1, "Product", rfl,
    Except.eq_ok_of_toOption links_rankings.2.2⟩

theorem isA_ranked : ranked.IsA 3 "Catalog" :=
  ⟨"Catalog", Except.eq_ok_of_toOption reads_ranked.2.1, reads_ranked.1⟩

theorem read_ranks : ranked.read 3 "ranks" = .ok (.map [(.ref 1, .ref 2)]) :=
  Except.eq_ok_of_toOption reads_ranked.2.2

/-- The value of the ranking is the second product. -/
theorem stepsLead_values : stepsLead ranked [ranksStep .mapValues] (.ref 3) (.ref 2) :=
  ⟨3, .ref 2, rfl, ⟨_, read_ranks, rfl, ⟨_, .ref 2, rfl, List.mem_cons_self, rfl, rfl⟩, nofun⟩, rfl⟩

/-- Its key is the first one, and nothing else. -/
theorem eq_of_stepsLead_keys {w : Value}
    (h : stepsLead ranked [ranksStep .mapKeys] (.ref 3) w) : w = .ref 1 := by
  obtain ⟨_, _, ⟨⟩, ⟨v, hread, -, ⟨items, u, hitems, hu, -, rfl⟩, -⟩, rfl⟩ := h
  cases hread.symm.trans read_ranks
  cases hitems
  exact List.mem_singleton.mp hu

end

/-! ## What an inverse side covers -/

section

variable {defs : List TypeDef} {mapping : Mapping schema} {segs : List Segment} {seg : Segment}

/-- In a mapping that is accepted, every association crossed has a backlink, which comes
from a pair of the nearest type that declares one for the same properties.  The forward
path of that pair leads from any object wherever the association does, provided that it
opens containers alike and narrows no further. -/
theorem exists_supplies_of_crossing (hschema : Schema.ofDefinitions defs = .ok schema)
    (hcompile : Mapping.compile schema ds = .ok mapping) (hshows : Shows schema ds segs)
    (hseg : seg ∈ segs) (htarget : seg.target.isSome = true) :
    ∃ link, seg.Backs schema ds link ∧ (∃ d, Supplies schema ds d seg link) ∧
      ∀ d, Supplies schema ds d seg link → ∃ forward,
        elaborateText schema d.owner d.path .objects = .ok forward ∧
        forward.map (·.property) = seg.steps.map (·.property) ∧
        (List.Forall₂ (TypedStep.AsWide schema) forward seg.steps →
          ∀ (store : ObjectStore schema) (o x : ObjectId),
            stepsLead store seg.steps (.ref o) (.ref x) →
            stepsLead store forward (.ref o) (.ref x)) := by
  have hm := Schema.coherent_of_accepted hschema
  obtain ⟨F, hfacts, -⟩ := Mapping.eq_of_compile hcompile
  obtain ⟨table, htable, -, -⟩ := facts_eq_ok hfacts
  obtain ⟨link, hbacks⟩ := hshows.exists_backs hcompile hseg htarget
  refine ⟨link, hbacks, exists_supplies hbacks, fun d hd => ?_⟩
  obtain ⟨forward, hforward, hproperties⟩ := hd.exists_forward htable hshows hseg
  refine ⟨forward, hforward, hproperties, fun hwide store o x hlead => ?_⟩
  exact stepsLead_of_asWide hm hwide hproperties hlead

theorem exists_supplies_of_crossing_rankings :
    Shows Sample.rankingsSchema Sample.rankings.mapping
      [Sample.ranksSegment .mapKeys, Sample.productNameSegment] ∧
    ∃ link, (Sample.ranksSegment .mapKeys).Backs Sample.rankingsSchema Sample.rankings.mapping link ∧
      (∃ d, Supplies Sample.rankingsSchema Sample.rankings.mapping d
        (Sample.ranksSegment .mapKeys) link) ∧
      ∀ d, Supplies Sample.rankingsSchema Sample.rankings.mapping d
          (Sample.ranksSegment .mapKeys) link → ∃ forward,
        elaborateText Sample.rankingsSchema d.owner d.path .objects = .ok forward ∧
        forward.map (·.property) = (Sample.ranksSegment .mapKeys).steps.map (·.property) ∧
        (List.Forall₂ (TypedStep.AsWide Sample.rankingsSchema) forward
            (Sample.ranksSegment .mapKeys).steps →
          ∀ (store : ObjectStore Sample.rankingsSchema) (o x : ObjectId),
            stepsLead store (Sample.ranksSegment .mapKeys).steps (.ref o) (.ref x) →
            stepsLead store forward (.ref o) (.ref x)) :=
  ⟨shows_keys, exists_supplies_of_crossing (Except.eq_ok_value _) Sample.compile_rankings
    shows_keys List.mem_cons_self rfl⟩

/-- The pair declared for the keys supplies the backlink over the values, too: a value is
reached by the path that documents show, and not by the forward path of the pair. -/
theorem supplies_not_leads_rankings :
    Mapping.compile Sample.rankingsSchema Sample.rankings.mapping = .ok Sample.rankingsMapping ∧
    Crosses Sample.rankingsSchema Sample.rankings.mapping (Sample.ranksSegment .mapValues)
      Sample.homeLink ∧
    Supplies Sample.rankingsSchema Sample.rankings.mapping Sample.ranksPair
      (Sample.ranksSegment .mapValues) Sample.homeLink ∧
    elaborateText Sample.rankingsSchema Sample.ranksPair.owner Sample.ranksPair.path .objects =
      .ok [Sample.ranksStep .mapKeys] ∧
    Sample.ranked.IsA 3 (Sample.ranksSegment .mapValues).owner ∧
    stepsLead Sample.ranked (Sample.ranksSegment .mapValues).steps (.ref 3) (.ref 2) ∧
    ¬ stepsLead Sample.ranked [Sample.ranksStep .mapKeys] (.ref 3) (.ref 2) := by
  have hsupplies := supplies_ranks .mapValues
  have hcrosses : Crosses Sample.rankingsSchema Sample.rankings.mapping
      (Sample.ranksSegment .mapValues) Sample.homeLink :=
    ⟨_, shows_values, List.mem_cons_self, hsupplies.backs (Except.eq_ok_value (by decide +kernel))⟩
  refine ⟨Sample.compile_rankings, hcrosses, hsupplies, elaborate_ranks, isA_ranked,
    stepsLead_values, fun h => ?_⟩
  cases eq_of_stepsLead_keys h

end

end IndexSync
