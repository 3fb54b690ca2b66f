import IndexSync.Proofs.Schema.Inheritance
import IndexSync.Proofs.Mapping.Documents
import IndexSync.Proofs.Path.Elaborate

/-!
# Segments and their triggers

The triggers of a path against the path walked forward.  Induction is on the
segments; what it carries is that the chain collected so far leads back from where
the next segment starts.

- `Joined` — every segment starts where the one before it ends.
- `exists_trigger_of_touchesAlong` — a change that touches a path fires one of its
  triggers, if the backlinks cover the associations.
- `touchesAlong_of_trigger` — a trigger fires only for such a change, if the
  backlinks retrace the associations.
- `chainLeads_of_segmentsLead`, `segmentsLead_of_chainLeads` — the same for the
  chain back from the end of an embedding path.
-/

namespace IndexSync

variable {schema m : Schema} {ds : Declarations} {table : InverseTable}
  {whole : TypeName × String}

theorem ObjectStore.IsA.of_fits (hm : schema.Coherent) {s : ObjectStore schema} {o : ObjectId}
    {a b : TypeName} (h : s.IsA o a) (hfits : schema.fits a b = true) : s.IsA o b := by
  obtain ⟨t, ht, hta⟩ := h
  exact ⟨t, ht, hm.fits_trans hta hfits⟩

/-! ## Backlinks over associations -/

/-- A backlink reads its path, and ends with a cast unless the path leads to objects of
the type that was required. -/
theorem backlinkTo_cases {start required : TypeName} {path : Path} {cast : Option TypeName}
    {link : Backlink} (h : backlinkTo m start path required cast = .ok link) :
    ∃ steps, path.elaborate m start .objects = .ok steps ∧
      (m.fits (endOf start steps) required = true ∧
          link = { startCast := cast, steps, endCast := none, land := endOf start steps } ∨
        m.fits required (endOf start steps) = true ∧
          link = { startCast := cast, steps, endCast := some required, land := required }) := by
  unfold backlinkTo at h
  cases hsteps : path.elaborate m start .objects with
  | error e => simp [hsteps] at h
  | ok steps =>
      refine ⟨steps, rfl, ?_⟩
      cases hcrossed : crossedEntity? m steps with
      | some entity => simp [hsteps, hcrossed] at h
      | none =>
          simp only [hsteps, hcrossed] at h
          by_cases hreached : m.fits (endOf start steps) required = true
          · rw [if_pos hreached] at h
            exact .inl ⟨hreached, (Except.ok.inj h).symm⟩
          · rw [if_neg hreached] at h
            by_cases hrequired : m.fits required (endOf start steps) = true
            · rw [if_pos hrequired] at h
              exact .inr ⟨hrequired, (Except.ok.inj h).symm⟩
            · rw [if_neg hrequired] at h
              cases h

/-- Objects need a cast unless they are of the type that the inverse side is declared
on. -/
theorem startCastFor_cases {owner target : TypeName} {names : String} {side : FarSide}
    {cast : Option TypeName} (h : startCastFor m owner names target side = .ok cast) :
    m.fits target side.owner = true ∧ cast = none ∨
      m.fits side.owner target = true ∧ cast = some side.owner := by
  unfold startCastFor at h
  by_cases htarget : m.fits target side.owner = true
  · rw [if_pos htarget] at h
    exact .inl ⟨htarget, (Except.ok.inj h).symm⟩
  · rw [if_neg htarget] at h
    by_cases hside : m.fits side.owner target = true
    · rw [if_pos hside] at h
      exact .inr ⟨hside, (Except.ok.inj h).symm⟩
    · rw [if_neg hside] at h
      cases h

/-- A backlink starts with the cast that was asked for, and lands on objects of the type
that was required. -/
theorem fits_of_backlinkTo (hm : m.Coherent) {start required : TypeName} {path : Path}
    {cast : Option TypeName} {link : Backlink}
    (h : backlinkTo m start path required cast = .ok link) :
    link.startCast = cast ∧ m.fits link.land required = true := by
  obtain ⟨steps, -, ⟨hfits, rfl⟩ | ⟨hfits, rfl⟩⟩ := backlinkTo_cases h
  · exact ⟨rfl, hfits⟩
  · exact ⟨rfl, hm.fits_refl (hm.declares_left hfits)⟩

/-- A backlink over an association starts at instances of the type that the association
leads to, and lands on instances of its owner. -/
theorem fits_of_linkAlong (hm : m.Coherent) {owner target : TypeName} {names : String}
    {side : FarSide} {link : Backlink} (h : linkAlong m owner names target side = .ok link) :
    m.fits link.land owner = true ∧ ∀ type ∈ link.startCast, m.fits type target = true := by
  obtain ⟨cast, hcast, h⟩ := Except.bind_eq_ok.mp h
  obtain ⟨hstart, hland⟩ := fits_of_backlinkTo hm (Except.mapError_eq_ok.mp h)
  refine ⟨hland, ?_⟩
  rw [hstart]
  rcases startCastFor_cases hcast with ⟨-, rfl⟩ | ⟨hfits, rfl⟩
  · exact nofun
  · rintro _ ⟨⟩
    exact hfits

theorem backlinkOver_eq_ok {owner target : TypeName} {names : String} {link : Backlink} :
    table.backlinkOver m whole owner names target = .ok link ↔
      ∃ side ∈ table.nearest? m owner names, linkAlong m owner names target side = .ok link := by
  unfold InverseTable.backlinkOver
  cases table.nearest? m owner names <;> simp

theorem backs_iff (htable : InverseTable.register m ds.inverses = .ok table) {seg : Segment}
    {target : TypeName} (htarget : seg.target = some target) {link : Backlink} :
    seg.Backs m ds link ↔ table.backlinkOver m whole seg.owner seg.names target = .ok link := by
  rw [backlinkOver_eq_ok]
  constructor
  · rintro ⟨table', htable', side, hside, target', htarget', hlink⟩
    cases htable.symm.trans htable'
    cases htarget.symm.trans htarget'
    exact ⟨side, hside, hlink⟩
  · rintro ⟨side, hside, hlink⟩
    exact ⟨table, htable, side, hside, target, htarget, hlink⟩

/-! ## Cutting -/

/-- Segments from `owner`, each starting where the one before it ends; they end at an
entity of the type given, or with an association not crossed. -/
inductive Joined : (owner : TypeName) → List Segment → (finish : Option TypeName) → Prop
  | nil {owner : TypeName} : Joined owner [] (some owner)
  | last {owner : TypeName} {seg : Segment} : seg.owner = owner → seg.target = none →
      Joined owner [seg] none
  | cross {owner target : TypeName} {seg : Segment} {rest : List Segment}
      {finish : Option TypeName} : seg.owner = owner → seg.target = some target →
      Joined target rest finish → Joined owner (seg :: rest) finish

theorem exists_joined_cutFrom {crossEnd : Bool} {steps begun : List TypedStep} {owner : TypeName} :
    ∃ finish, Joined owner (cutFrom m crossEnd owner begun steps) finish := by
  induction steps generalizing owner begun with
  | nil =>
      rw [cutFrom]
      split
      · exact ⟨_, .nil⟩
      · exact ⟨_, .last rfl rfl⟩
  | cons step rest ih =>
      rw [cutFrom]
      split
      · exact ih
      · obtain ⟨finish, h⟩ := @ih [] _
        exact ⟨finish, .cross rfl rfl h⟩

theorem exists_joined_cut {crossEnd : Bool} {root : TypeName} {steps : List TypedStep} :
    ∃ finish, Joined root (cut m crossEnd root steps) finish :=
  exists_joined_cutFrom

/-- A path to an entity is cut into segments that lead to it. -/
theorem joined_cutFrom_end {steps begun : List TypedStep} {owner : TypeName}
    (hbegun : steps = [] → begun = [])
    (hlast : ∀ last ∈ steps.getLast?, ∃ type, last.element.target? = some type ∧
      m.isEntity type = true) :
    Joined owner (cutFrom m true owner begun steps) (some (endOf owner steps)) := by
  induction steps generalizing owner begun with
  | nil =>
      rw [hbegun rfl, cutFrom]
      exact .nil
  | cons step rest ih =>
      rw [cutFrom]
      by_cases hrest : rest = []
      · subst hrest
        obtain ⟨type, htype, hentity⟩ := hlast step rfl
        have hcross : crossing? m true ([] : List TypedStep).isEmpty step = some type := by
          simp [crossing?, htype, hentity]
        rw [hcross]
        have hend : endOf owner [step] = type := by simp [endOf, htype]
        rw [hend]
        exact .cross rfl rfl .nil
      · have hlast' : ∀ last ∈ rest.getLast?, ∃ type, last.element.target? = some type ∧
            m.isEntity type = true := by
          intro last hmem
          exact hlast last (by rw [List.getLast?_cons, hmem]; rfl)
        have hsome : ∀ last ∈ rest.getLast?, last.element.target?.isSome := by
          intro last hmem
          obtain ⟨type, htype, -⟩ := hlast' last hmem
          simp [htype]
        split
        · rw [endOf_cons_of_ne_nil hrest hsome]
          exact ih (fun h => absurd h hrest) hlast'
        · rw [endOf_cons_of_ne_nil hrest hsome]
          exact .cross rfl rfl (ih (fun h => absurd h hrest) hlast')

/-! ## Triggers against segments -/

/-- The triggers of a first segment and of the rest. -/
theorem triggersAlong_cons_eq_ok {chain back : List Backlink} {seg : Segment}
    {rest : List Segment} {triggers : List Trigger}
    (h : triggersAlong m table whole chain (seg :: rest) = .ok (triggers, back)) :
    (seg.target = none ∧ triggers = [.along seg.owner seg.names chain] ∧ back = chain) ∨
      ∃ target link triggers', seg.target = some target ∧
        table.backlinkOver m whole seg.owner seg.names target = .ok link ∧
        triggersAlong m table whole (link :: chain) rest = .ok (triggers', back) ∧
        triggers = .along seg.owner seg.names chain ::
          .along (link.startCast.getD target) link.names (link :: chain) :: triggers' := by
  rw [triggersAlong] at h
  cases htarget : seg.target with
  | none =>
      rw [htarget] at h
      cases h
      exact .inl ⟨rfl, rfl, rfl⟩
  | some target =>
      rw [htarget] at h
      obtain ⟨link, hlink, h⟩ := Except.bind_eq_ok.mp h
      obtain ⟨⟨triggers', back'⟩, hrest, h⟩ := Except.bind_eq_ok.mp h
      cases Except.pure_eq_ok.mp h
      exact .inr ⟨target, link, triggers', rfl, hlink, hrest, rfl⟩

variable {s : ObjectStore schema} {chain back : List Backlink} {segs : List Segment}
  {triggers : List Trigger} {o x y z : ObjectId} {dirty : Option DirtySet}

/-- The far end of a segment is one of the objects that its backlink starts from. -/
theorem isA_start_of_covers {seg : Segment} {link : Backlink} {target : TypeName}
    (htarget : seg.target = some target) (hlead : seg.Leads s o x) (hback : link.Leads s x o) :
    s.IsA x (link.startCast.getD target) := by
  cases hcast : link.startCast with
  | none =>
      obtain ⟨target', htarget', hx⟩ := hlead.finish
      cases htarget.symm.trans htarget'
      exact hx
  | some type => exact hback.start type hcast

/-- A backlink that retraces its association starts at the far end of it. -/
theorem leads_of_retraces (hm : schema.Coherent) {seg : Segment} {link : Backlink}
    {target : TypeName} (htarget : seg.target = some target) {side : FarSide}
    (hside : linkAlong schema seg.owner seg.names target side = .ok link)
    (hretraces : link.Retraces s seg) (hx : s.IsA x target) (hlead : link.Leads s x o) :
    seg.Leads s o x where
  start := hlead.land.of_fits hm (fits_of_linkAlong hm hside).1
  steps := by
    refine hretraces o x ?_ hlead
    rw [htarget]
    rintro _ ⟨⟩
    exact hx
  finish := ⟨target, htarget, hx⟩

/-- A trigger lands where its chain ends. -/
theorem landing_of_triggersAlong
    (htrace : triggersAlong m table whole chain segs = .ok (triggers, back)) {t : Trigger}
    (ht : t ∈ triggers) : t.landing = chainEnd t.chain t.changed := by
  induction segs generalizing chain triggers with
  | nil =>
      cases htrace
      cases ht
  | cons seg rest ih =>
      rcases triggersAlong_cons_eq_ok htrace with
        ⟨-, rfl, -⟩ | ⟨target, link, triggers', -, -, hrest, rfl⟩
      · cases List.mem_singleton.mp ht
        rfl
      · rcases List.mem_cons.mp ht with rfl | ht
        · rfl
        rcases List.mem_cons.mp ht with rfl | ht
        · rfl
        · exact ih hrest ht

theorem exists_trigger_of_touchesAlong
    (htable : InverseTable.register schema ds.inverses = .ok table)
    (hcovers : ∀ seg ∈ segs, ∀ link, seg.Backs schema ds link → link.Covers s seg)
    (htrace : triggersAlong schema table whole chain segs = .ok (triggers, back))
    (hchain : chainLeads s chain x z) (h : TouchesAlong s ds o dirty segs x) :
    ∃ t ∈ triggers, s.IsA o t.changed ∧ Alters dirty t.dirty ∧ chainLeads s t.chain o z := by
  obtain ⟨seg, y, hcomes, htouch⟩ := h
  -- on the way to the segment; the chain collected so far leads back from where it starts
  induction hcomes generalizing chain triggers with
  | @here seg rest x hx =>
      rcases triggersAlong_cons_eq_ok htrace with
        ⟨htarget, rfl, -⟩ | ⟨target, link, triggers', htarget, hlink, -, rfl⟩
      · rcases htouch with ⟨rfl, halter⟩ | ⟨link, ⟨-, -, -, -, target, htarget', -⟩, -⟩
        · exact ⟨_, List.mem_cons_self, hx, halter, hchain⟩
        · cases htarget.symm.trans htarget'
      · rcases htouch with ⟨rfl, halter⟩ | ⟨link', hbacks, hlead, halter⟩
        · exact ⟨_, List.mem_cons_self, hx, halter, hchain⟩
        · -- the far end changed: the second trigger starts there, with the link itself
          cases hlink.symm.trans ((backs_iff htable htarget).mp hbacks)
          have hback : link.Leads s o x := hcovers seg List.mem_cons_self _ hbacks x o hlead
          have hstart := isA_start_of_covers htarget hlead hback
          exact ⟨_, List.mem_cons_of_mem _ List.mem_cons_self, hstart, halter, x, hback, hchain⟩
  | @later first seg rest x y' y hfirst _ ih =>
      rcases triggersAlong_cons_eq_ok htrace with
        ⟨htarget, -⟩ | ⟨target, link, triggers', htarget, hlink, hrest, rfl⟩
      · obtain ⟨_, htarget', -⟩ := hfirst.finish
        cases htarget.symm.trans htarget'
      · obtain ⟨hcover, hcovers⟩ := List.forall_mem_cons.mp hcovers
        have hbacks := (backs_iff htable htarget).mpr hlink
        have hback : link.Leads s y' x := hcover link hbacks x y' hfirst
        have hchain' : chainLeads s (link :: chain) y' z := ⟨x, hback, hchain⟩
        obtain ⟨t, ht, hfires⟩ := ih hcovers hrest hchain' htouch
        exact ⟨t, List.mem_cons_of_mem _ (List.mem_cons_of_mem _ ht), hfires⟩

theorem touchesAlong_of_trigger (hm : schema.Coherent)
    (htable : InverseTable.register schema ds.inverses = .ok table) {owner : TypeName}
    {finish : Option TypeName} (hjoined : Joined owner segs finish)
    (hretraces : ∀ seg ∈ segs, ∀ link, seg.Backs schema ds link → link.Retraces s seg)
    (htrace : triggersAlong schema table whole chain segs = .ok (triggers, back))
    {t : Trigger} (ht : t ∈ triggers) (ho : s.IsA o t.changed) (halter : Alters dirty t.dirty)
    (hlead : chainLeads s t.chain o z) :
    ∃ x, s.IsA x owner ∧ chainLeads s chain x z ∧ TouchesAlong s ds o dirty segs x := by
  -- on the segments; every chain ends with the one collected before its segment
  induction hjoined generalizing chain triggers with
  | nil =>
      cases htrace
      cases ht
  | @last owner seg howner htarget =>
      subst howner
      rcases triggersAlong_cons_eq_ok htrace with ⟨-, rfl, -⟩ | ⟨_, _, _, htarget', -⟩
      · cases List.mem_singleton.mp ht
        exact ⟨o, ho, hlead, seg, o, .here ho, .inl ⟨rfl, halter⟩⟩
      · cases htarget.symm.trans htarget'
  | @cross owner target seg rest finish howner htarget _ ih =>
      subst howner
      rcases triggersAlong_cons_eq_ok htrace with
        ⟨htarget', -⟩ | ⟨_, link, triggers', htarget', hlink, hrest, rfl⟩
      · cases htarget.symm.trans htarget'
      · cases htarget.symm.trans htarget'
        obtain ⟨hretrace, hretraces⟩ := List.forall_mem_cons.mp hretraces
        have hbacks := (backs_iff htable htarget).mpr hlink
        have hretrace : link.Retraces s seg := hretrace link hbacks
        obtain ⟨side, -, hside⟩ := backlinkOver_eq_ok.mp hlink
        rcases List.mem_cons.mp ht with rfl | ht
        · exact ⟨o, ho, hlead, seg, o, .here ho, .inl ⟨rfl, halter⟩⟩
        rcases List.mem_cons.mp ht with rfl | ht
        · -- the change of the inverse path: the chain starts with the link itself
          obtain ⟨x, hlink', hchain⟩ := hlead
          have ho' : s.IsA o target := by
            cases hcast : link.startCast with
            | none =>
                rw [show (Trigger.along _ _ _).changed = target by rw [hcast]; rfl] at ho
                exact ho
            | some type =>
                exact (hlink'.start type hcast).of_fits hm
                  ((fits_of_linkAlong hm hside).2 type hcast)
          have hseg : seg.Leads s x o := leads_of_retraces hm htarget hside hretrace ho' hlink'
          exact ⟨x, hseg.start, hchain, seg, x, .here hseg.start, .inr ⟨link, hbacks, hseg, halter⟩⟩
        · -- a later trigger: what it touches comes after the segment
          obtain ⟨y, hy, ⟨x, hlink', hchain⟩, seg', y', hcomes, htouch⟩ := ih hretraces hrest ht
          have hseg : seg.Leads s x y := leads_of_retraces hm htarget hside hretrace hy hlink'
          exact ⟨x, hseg.start, hchain, seg', y', .later hseg hcomes, htouch⟩

/-! ## The chain back from the end -/

theorem chainLeads_of_segmentsLead
    (htable : InverseTable.register schema ds.inverses = .ok table)
    (hcovers : ∀ seg ∈ segs, ∀ link, seg.Backs schema ds link → link.Covers s seg)
    (htrace : triggersAlong schema table whole chain segs = .ok (triggers, back))
    (hchain : chainLeads s chain x z) (h : segmentsLead s segs x y) : chainLeads s back y z := by
  induction segs generalizing chain triggers x with
  | nil =>
      cases h
      cases htrace
      exact hchain
  | cons seg rest ih =>
      obtain ⟨y', hseg, h⟩ := h
      rcases triggersAlong_cons_eq_ok htrace with
        ⟨htarget, -⟩ | ⟨target, link, triggers', htarget, hlink, hrest, -⟩
      · obtain ⟨_, htarget', -⟩ := hseg.finish
        cases htarget.symm.trans htarget'
      · obtain ⟨hcover, hcovers⟩ := List.forall_mem_cons.mp hcovers
        have hbacks := (backs_iff htable htarget).mpr hlink
        have hback : link.Leads s y' x := hcover link hbacks x y' hseg
        have hchain' : chainLeads s (link :: chain) y' z := ⟨x, hback, hchain⟩
        exact ih hcovers hrest hchain' h

theorem segmentsLead_of_chainLeads (hm : schema.Coherent)
    (htable : InverseTable.register schema ds.inverses = .ok table) {owner finish : TypeName}
    (hjoined : Joined owner segs (some finish))
    (hretraces : ∀ seg ∈ segs, ∀ link, seg.Backs schema ds link → link.Retraces s seg)
    (htrace : triggersAlong schema table whole chain segs = .ok (triggers, back))
    (hy : s.IsA y finish) (h : chainLeads s back y z) :
    ∃ x, s.IsA x owner ∧ segmentsLead s segs x y ∧ chainLeads s chain x z := by
  generalize hfinish : some finish = finish? at hjoined
  induction hjoined generalizing chain triggers with
  | nil =>
      cases hfinish
      cases htrace
      exact ⟨y, hy, rfl, h⟩
  | last => cases hfinish
  | @cross owner target seg rest finish? howner htarget _ ih =>
      subst howner
      rcases triggersAlong_cons_eq_ok htrace with
        ⟨htarget', -⟩ | ⟨_, link, triggers', htarget', hlink, hrest, -⟩
      · cases htarget.symm.trans htarget'
      · cases htarget.symm.trans htarget'
        obtain ⟨hretrace, hretraces⟩ := List.forall_mem_cons.mp hretraces
        obtain ⟨y', hy', hsegs, x, hlink', hchain⟩ := ih hretraces hrest hfinish
        have hbacks := (backs_iff htable htarget).mpr hlink
        have hretrace : link.Retraces s seg := hretrace link hbacks
        obtain ⟨side, -, hside⟩ := backlinkOver_eq_ok.mp hlink
        have hseg : seg.Leads s x y' := leads_of_retraces hm htarget hside hretrace hy' hlink'
        exact ⟨x, hseg.start, ⟨y', hseg, hsegs⟩, hchain⟩

/-- Segments lead from an instance of the first owner to one of the last target. -/
theorem isA_of_segmentsLead {owner finish : TypeName} (hjoined : Joined owner segs (some finish))
    (hx : s.IsA x owner) (h : segmentsLead s segs x y) : s.IsA y finish := by
  generalize hfinish : some finish = finish? at hjoined
  induction hjoined generalizing x with
  | nil =>
      cases hfinish
      cases h
      exact hx
  | last => cases hfinish
  | @cross owner target seg rest finish? _ htarget _ ih =>
      obtain ⟨y', hseg, h⟩ := h
      obtain ⟨target', htarget', hy'⟩ := hseg.finish
      cases htarget.symm.trans htarget'
      exact ih hy' h hfinish

end IndexSync
