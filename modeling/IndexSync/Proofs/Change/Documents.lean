import IndexSync.Sample.Desks
import IndexSync.Proofs.Change.Exact
import IndexSync.Proofs.Mapping.Compiled
import IndexSync.Proofs.Store.Reading

/-!
# What an update owes to documents

The answer to an update against what documents show by their declarations.

- `Engine.exists_found_of_touched` — no document that shows something touched, by way
  of objects of the declared types, is missed, if the backlinks cover the associations.
- `Engine.misplaced_not_found` — a document that shows something else is missed.
- `Engine.exists_touched_of_found` — a document is not answered for nothing, if the
  backlinks retrace the associations.
-/

namespace IndexSync.Engine

open Relation (ReflTransGen)

variable {defs : List TypeDef} {schema : Schema} {ds : Declarations} {mapping : Mapping schema}
  {settings : Settings} {e : Engine schema} {store : ObjectStore schema} {o x y : ObjectId}
  {dirty : Option DirtySet} {found : EntitySet}

/-! ## The couple -/

section

open Sample

/-- What is declared about persons, with its paths elaborated and cut. -/
theorem paths_couple :
    spouses.mapping.types = [personPart] ∧ coupleSchema.isEntity "Person" = true ∧
    (elaborateText coupleSchema "Person" (below "" "name") .anything).toOption = some [nameStep] ∧
    (elaborateText coupleSchema "Person" (below "" "spouse") .objects).toOption =
      some [spouseStep] ∧
    cut coupleSchema false "Person" [nameStep] = [nameSegment] ∧
    cut coupleSchema true "Person" [spouseStep] = [spouseSegment] ∧
    (coupleTable.backlinkOver coupleSchema ("", "") "Person" spouseSegment.names
      "Person").toOption = some spouseLink := by
  decide +kernel

/-- What is stored about the two. -/
theorem reads_couple :
    couple.objects.keys = [1, 2] ∧ coupleSchema.fits "Person" "Person" = true ∧
    (couple.runtimeType 1).toOption = some "Person" ∧
    (couple.runtimeType 2).toOption = some "Person" ∧
    (couple.read 1 "spouse").toOption = some (.ref 2) ∧
    (couple.read 2 "spouse").toOption = some (.ref 1) := by
  decide +kernel

theorem types_spouses : spouses.mapping.types = [personPart] := paths_couple.1

theorem isEntity_person : coupleSchema.isEntity "Person" = true := paths_couple.2.1

theorem elaborate_name : elaborateText coupleSchema "Person" (below "" "name") .anything =
    .ok [nameStep] :=
  Except.eq_ok_of_toOption paths_couple.2.2.1

theorem elaborate_spouse : elaborateText coupleSchema "Person" (below "" "spouse") .objects =
    .ok [spouseStep] :=
  Except.eq_ok_of_toOption paths_couple.2.2.2.1

theorem cut_name : cut coupleSchema false "Person" [nameStep] = [nameSegment] :=
  paths_couple.2.2.2.2.1

theorem cut_spouse : cut coupleSchema true "Person" [spouseStep] = [spouseSegment] :=
  paths_couple.2.2.2.2.2.1

theorem read_one : couple.read 1 "spouse" = .ok (.ref 2) :=
  Except.eq_ok_of_toOption reads_couple.2.2.2.2.1

theorem read_two : couple.read 2 "spouse" = .ok (.ref 1) :=
  Except.eq_ok_of_toOption reads_couple.2.2.2.2.2

theorem inlined_couple_iff {root : TypeName} {place : String} {d : PartDecl} :
    Inlined coupleSchema spouses.mapping root place d ↔
      root = "Person" ∧ place = "" ∧ d = personPart :=
  inlined_iff_of_single types_spouses isEntity_person

/-- The documents of the couple cross one association. -/
theorem eq_of_crosses_couple {seg : Segment} {link : Backlink}
    (h : Crosses coupleSchema spouses.mapping seg link) :
    seg = spouseSegment ∧ link = spouseLink := by
  obtain ⟨segs, hshows, hseg, hbacks⟩ := h
  have hsegment : ∀ seg ∈ segs, seg = spouseSegment ∨ seg.target = none := by
    cases hshows with
    | declared hdeclares =>
        cases hdeclares with
        | read hd hpath hsteps =>
            obtain ⟨rfl, rfl, rfl⟩ := inlined_couple_iff.mp hd
            cases List.mem_singleton.mp hpath
            cases hsteps.symm.trans elaborate_name
            rw [cut_name]
            simp [nameSegment]
        | embed hd hpath hsteps =>
            obtain ⟨rfl, rfl, rfl⟩ := inlined_couple_iff.mp hd
            cases List.mem_singleton.mp hpath
            cases hsteps.symm.trans elaborate_spouse
            rw [show coupleSchema.isEntity (endOf "Person" [spouseStep]) = true from
              isEntity_person, cut_spouse]
            simp
    | used hdepends =>
        obtain ⟨_, _, hd, hother, -⟩ := hdepends
        obtain ⟨-, -, rfl⟩ := inlined_couple_iff.mp hd
        cases hother
  rcases hsegment seg hseg with rfl | hnone
  · refine ⟨rfl, ?_⟩
    have hlink : (coupleTable.backlinkOver coupleSchema ("", "") "Person" spouseSegment.names
        "Person") = .ok link := (backs_iff (Except.eq_ok_value _) rfl).mp hbacks
    exact Except.ok.inj
      (hlink.symm.trans (Except.eq_ok_of_toOption paths_couple.2.2.2.2.2.2))
  · obtain ⟨-, -, -, -, target, htarget, -⟩ := hbacks
    cases hnone.symm.trans htarget

theorem eq_one_or_two {type : TypeName} (h : couple.runtimeType x = .ok type) :
    x = 1 ∨ x = 2 := by
  have hmem : x ∈ couple.objects.keys := ObjectStore.mem_keys_of_runtimeType h
  simpa [reads_couple.1] using hmem

theorem isA_person (h : x = 1 ∨ x = 2) : couple.IsA x "Person" := by
  rcases h with rfl | rfl
  · exact ⟨"Person", Except.eq_ok_of_toOption reads_couple.2.2.1, reads_couple.2.1⟩
  · exact ⟨"Person", Except.eq_ok_of_toOption reads_couple.2.2.2.1, reads_couple.2.1⟩

theorem spouse_one : stepsLead couple [spouseStep] (.ref 1) (.ref 2) :=
  ⟨1, .ref 2, rfl, ⟨.ref 2, read_one, rfl, rfl, nofun⟩, rfl⟩

theorem spouse_two : stepsLead couple [spouseStep] (.ref 2) (.ref 1) :=
  ⟨2, .ref 1, rfl, ⟨.ref 1, read_two, rfl, rfl, nofun⟩, rfl⟩

/-- The two are each other's spouse, and nobody else's. -/
theorem spouse_symm (hx : couple.IsA x "Person")
    (h : stepsLead couple [spouseStep] (.ref x) (.ref y)) :
    stepsLead couple [spouseStep] (.ref y) (.ref x) ∧ couple.IsA y "Person" := by
  obtain ⟨_, _, ⟨⟩, ⟨v, hread, -, rfl, -⟩, rfl⟩ := h
  obtain ⟨type, htype, -⟩ := hx
  rcases eq_one_or_two htype with rfl | rfl
  · cases hread.symm.trans read_one
    exact ⟨spouse_two, isA_person (.inr rfl)⟩
  · cases hread.symm.trans read_two
    exact ⟨spouse_one, isA_person (.inl rfl)⟩

theorem covers_couple (seg : Segment) (link : Backlink)
    (h : Crosses coupleSchema spouses.mapping seg link) : link.Covers couple seg := by
  obtain ⟨rfl, rfl⟩ := eq_of_crosses_couple h
  intro o x hlead
  obtain ⟨hback, -⟩ := spouse_symm hlead.start hlead.steps
  exact ⟨nofun, hback, nofun, hlead.start⟩

theorem retraces_couple (seg : Segment) (link : Backlink)
    (h : Crosses coupleSchema spouses.mapping seg link) : link.Retraces couple seg := by
  obtain ⟨rfl, rfl⟩ := eq_of_crosses_couple h
  intro o x hx hlead
  exact (spouse_symm (hx "Person" rfl) hlead.steps).1

/-- Each of the two embeds the other. -/
theorem documentEmbeds_couple : DocumentEmbeds couple spouses.mapping 2 1 := by
  have hdeclares : Declares coupleSchema spouses.mapping "Person" "spouse" [spouseStep] true :=
    .embed (inlined_couple_iff.mpr ⟨rfl, rfl, rfl⟩) List.mem_cons_self elaborate_spouse
  have hlead : spouseSegment.Leads couple 2 1 :=
    ⟨isA_person (.inr rfl), spouse_two, "Person", rfl, isA_person (.inl rfl)⟩
  refine ⟨"Person", "spouse", [spouseStep], isA_person (.inr rfl), hdeclares, ?_⟩
  rw [cut_spouse]
  exact ⟨1, hlead, rfl⟩

theorem touched_couple : Touched couple spouses.mapping 1 (some newName) 1 := by
  have hdeclares : Declares coupleSchema spouses.mapping "Person" "name" [nameStep] false :=
    .read (inlined_couple_iff.mpr ⟨rfl, rfl, rfl⟩) List.mem_cons_self elaborate_name
  refine .path (isA_person (.inl rfl)) hdeclares ?_
  rw [cut_name]
  refine ⟨nameSegment, 1, .here (isA_person (.inl rfl)), .inl ⟨rfl, ?_⟩⟩
  rintro _ ⟨⟩
  decide +kernel

end

/-! ## Desks -/

section

open Sample

/-- What is declared about desks, with the path elaborated and cut; the name at its end is
read like that of a person. -/
theorem paths_desks :
    desks.mapping.types = [deskPart] ∧ desksSchema.isEntity "Desk" = true ∧
    (elaborateText desksSchema "Desk" (below "" "user.name") .anything).toOption =
      some [userStep, nameStep] ∧
    cut desksSchema false "Desk" [userStep, nameStep] = [userSegment, nameSegment] ∧
    (desksTable.backlinkOver desksSchema ("", "") "Desk" userSegment.names
      "Person").toOption = some deskLink := by
  decide +kernel

/-- What is stored about the desk and the robot. -/
theorem reads_misplaced :
    misplaced.objects.keys = [1, 2] ∧ desksSchema.fits "Desk" "Desk" = true ∧
    desksSchema.fits "Robot" "Desk" = false ∧
    (misplaced.runtimeType 1).toOption = some "Desk" ∧
    (misplaced.runtimeType 2).toOption = some "Robot" ∧
    (misplaced.read 1 "user").toOption = some (.ref 2) ∧
    (misplaced.read 2 "desk").toOption = some (.ref 1) := by
  decide +kernel

theorem elaborate_userName : elaborateText desksSchema "Desk" (below "" "user.name") .anything =
    .ok [userStep, nameStep] :=
  Except.eq_ok_of_toOption paths_desks.2.2.1

theorem inlined_desks_iff {root : TypeName} {place : String} {d : PartDecl} :
    Inlined desksSchema desks.mapping root place d ↔
      root = "Desk" ∧ place = "" ∧ d = deskPart :=
  inlined_iff_of_single paths_desks.1 paths_desks.2.1

/-- Documents show one path. -/
theorem eq_of_shows_desks {segs : List Segment} (h : Shows desksSchema desks.mapping segs) :
    segs = [userSegment, nameSegment] := by
  cases h with
  | declared hdeclares =>
      cases hdeclares with
      | read hd hpath hsteps =>
          obtain ⟨rfl, rfl, rfl⟩ := inlined_desks_iff.mp hd
          cases List.mem_singleton.mp hpath
          cases hsteps.symm.trans elaborate_userName
          exact paths_desks.2.2.2.1
      | embed hd hpath _ =>
          obtain ⟨-, -, rfl⟩ := inlined_desks_iff.mp hd
          cases hpath
  | used hdepends =>
      obtain ⟨_, _, hd, hother, -⟩ := hdepends
      obtain ⟨-, -, rfl⟩ := inlined_desks_iff.mp hd
      cases hother

theorem eq_of_crosses_desks {seg : Segment} {link : Backlink}
    (h : Crosses desksSchema desks.mapping seg link) : seg = userSegment ∧ link = deskLink := by
  obtain ⟨segs, hshows, hseg, hbacks⟩ := h
  rw [eq_of_shows_desks hshows] at hseg
  rcases List.mem_pair.mp hseg with rfl | rfl
  · refine ⟨rfl, ?_⟩
    have hlink : (desksTable.backlinkOver desksSchema ("", "") "Desk" userSegment.names
        "Person") = .ok link := (backs_iff (Except.eq_ok_value _) rfl).mp hbacks
    exact Except.ok.inj (hlink.symm.trans (Except.eq_ok_of_toOption paths_desks.2.2.2.2))
  · obtain ⟨-, -, -, -, target, htarget, -⟩ := hbacks
    cases htarget

theorem isA_desk : misplaced.IsA 1 "Desk" :=
  ⟨"Desk", Except.eq_ok_of_toOption reads_misplaced.2.2.2.1, reads_misplaced.2.1⟩

theorem read_user : misplaced.read 1 "user" = .ok (.ref 2) :=
  Except.eq_ok_of_toOption reads_misplaced.2.2.2.2.2.1

/-- The robot is no desk. -/
theorem eq_one_of_isA_desk (h : misplaced.IsA o "Desk") : o = 1 := by
  obtain ⟨type, htype, hfits⟩ := h
  have hmem : o ∈ misplaced.objects.keys := ObjectStore.mem_keys_of_runtimeType htype
  rw [reads_misplaced.1] at hmem
  rcases List.mem_pair.mp hmem with rfl | rfl
  · rfl
  · cases htype.symm.trans (Except.eq_ok_of_toOption reads_misplaced.2.2.2.2.1)
    cases hfits.symm.trans reads_misplaced.2.2.1

theorem user_one : stepsLead misplaced [userStep] (.ref 1) (.ref 2) :=
  ⟨1, .ref 2, rfl, ⟨.ref 2, read_user, rfl, rfl, nofun⟩, rfl⟩

/-- From the robot, the backlink leads to its desk. -/
theorem leads_deskLink : deskLink.Leads misplaced 2 1 where
  start := nofun
  steps := ⟨2, .ref 1, rfl,
    ⟨.ref 1, Except.eq_ok_of_toOption reads_misplaced.2.2.2.2.2.2, rfl, rfl, nofun⟩, rfl⟩
  finish := nofun
  land := isA_desk

/-- Whoever uses a desk, the backlink leads back to it. -/
theorem covers_desks (seg : Segment) (link : Backlink)
    (h : Crosses desksSchema desks.mapping seg link) (o x : ObjectId)
    (ho : misplaced.IsA o seg.owner) (hsteps : stepsLead misplaced seg.steps (.ref o) (.ref x)) :
    link.Leads misplaced x o := by
  obtain ⟨rfl, rfl⟩ := eq_of_crosses_desks h
  cases eq_one_of_isA_desk ho
  obtain ⟨_, _, ⟨⟩, ⟨v, hread, -, rfl, -⟩, rfl⟩ := hsteps
  cases hread.symm.trans read_user
  exact leads_deskLink

end

/-! ## Nothing is missed -/

/-- An update answers with every document that shows, itself or through what it embeds,
something that the change touches. -/
theorem exists_found_of_touched (hschema : Schema.ofDefinitions defs = .ok schema)
    (hcompile : Mapping.compile schema ds = .ok mapping) (hreach : Reached schema ds settings e)
    (hcovers : ∀ seg link, Crosses schema ds seg link → link.Covers store seg)
    (hrun : ((afterChange store o dirty).run.run e).1 = .ok found)
    (hx : Documented store ds x) (hxy : ReflTransGen (DocumentEmbeds store ds) x y)
    (hy : Touched store ds o dirty y) : ∃ r ∈ found, store.reference x = .ok r := by
  have hm := Schema.coherent_of_accepted hschema
  have hclosed := Mapping.closed_of_compile hm hcompile
  have hstale : Stale mapping store o dirty x :=
    Mapping.stale_of_touched hm hcompile hcovers hx hxy hy
  obtain ⟨type, tree, l, s, ho, hbuilt, hwalk, rfl⟩ :=
    walk_of_afterChange hm hcompile hreach hrun
  exact ChangeTree.exists_found_of_stale hbuilt rfl rfl hm hclosed ho hwalk hstale
    ((Mapping.hasDocument_iff hcompile).mpr hx)

theorem exists_found_of_touched_couple :
    (∀ seg link, Crosses Sample.coupleSchema Sample.spouses.mapping seg link →
      link.Covers Sample.couple seg) ∧
    DocumentEmbeds Sample.couple Sample.spouses.mapping 2 1 ∧
    Touched Sample.couple Sample.spouses.mapping 1 (some Sample.newName) 1 ∧
    ∃ r ∈ Sample.renamedFound, Sample.couple.reference 2 = .ok r :=
  ⟨covers_couple, documentEmbeds_couple, touched_couple,
    exists_found_of_touched (Except.eq_ok_value _) Sample.compile_couple
      (.start (Except.eq_ok_value _)) covers_couple (Except.eq_ok_value _)
      ⟨Sample.personPart, types_spouses ▸ List.mem_cons_self, rfl, isA_person (.inr rfl)⟩
      (.single documentEmbeds_couple) touched_couple⟩

/-- The walks that count go through objects of the declared types.  A desk shows the name of
the robot that uses it, and the backlink leads from the robot to the desk; but the robot is
no person, so that nothing is looked up when its name changes. -/
theorem misplaced_not_found :
    Schema.ofDefinitions Sample.desks.types = .ok Sample.desksSchema ∧
    Mapping.compile Sample.desksSchema Sample.desks.mapping = .ok Sample.desksMapping ∧
    Reached Sample.desksSchema Sample.desks.mapping {} Sample.desksEngine ∧
    (∀ seg link, Crosses Sample.desksSchema Sample.desks.mapping seg link → ∀ o x,
      Sample.misplaced.IsA o seg.owner → stepsLead Sample.misplaced seg.steps (.ref o) (.ref x) →
        link.Leads Sample.misplaced x o) ∧
    Documented Sample.misplaced Sample.desks.mapping 1 ∧ Sample.misplaced.IsA 1 "Desk" ∧
    Declares Sample.desksSchema Sample.desks.mapping "Desk" "user.name"
      [Sample.userStep, Sample.nameStep] false ∧
    cut Sample.desksSchema false "Desk" [Sample.userStep, Sample.nameStep] =
      [Sample.userSegment, Sample.nameSegment] ∧
    stepsLead Sample.misplaced Sample.userSegment.steps (.ref 1) (.ref 2) ∧
    stepsLead Sample.misplaced Sample.nameSegment.steps (.ref 2) (.text "R") ∧
    (Sample.misplaced.runtimeType 2 = .ok "Robot" ∧ Sample.desksSchema.isEntity "Robot" = true) ∧
    Alters (some Sample.newName) Sample.nameSegment.names ∧
    ((afterChange Sample.misplaced 2 (some Sample.newName)).run.run Sample.desksEngine).1 =
      .ok ∅ := by
  have hpart : Sample.deskPart ∈ Sample.desks.mapping.types := by
    rw [paths_desks.1]
    exact List.mem_cons_self
  have hname : Sample.misplaced.read 2 "name" = .ok (.text "R") :=
    Except.eq_ok_of_toOption (by decide +kernel)
  have halters : Alters (some Sample.newName) Sample.nameSegment.names := by
    rintro _ ⟨⟩
    decide +kernel
  exact ⟨Except.eq_ok_value _, Except.eq_ok_value _, .start (Except.eq_ok_value _), covers_desks,
    ⟨Sample.deskPart, hpart, rfl, isA_desk⟩, isA_desk,
    .read (inlined_desks_iff.mpr ⟨rfl, rfl, rfl⟩) List.mem_cons_self elaborate_userName, paths_desks.2.2.2.1, user_one,
    ⟨2, _, rfl, ⟨_, hname, rfl, rfl, nofun⟩, rfl⟩,
    ⟨Except.eq_ok_of_toOption reads_misplaced.2.2.2.2.1, by decide +kernel⟩, halters,
    Except.eq_ok_of_toOption (by decide +kernel)⟩

/-! ## Nothing is answered in vain -/

/-- With filters, an update answers only with documents that show, themselves or
through what they embed, something that the change touches. -/
theorem exists_touched_of_found (hschema : Schema.ofDefinitions defs = .ok schema)
    (hcompile : Mapping.compile schema ds = .ok mapping) (hfiltering : settings.filtering = true)
    (hreach : Reached schema ds settings e)
    (hretraces : ∀ seg link, Crosses schema ds seg link → link.Retraces store seg)
    (hrun : ((afterChange store o dirty).run.run e).1 = .ok found) {r : EntityRef}
    (hr : r ∈ found) :
    ∃ x y, Documented store ds x ∧ store.reference x = .ok r ∧
      ReflTransGen (DocumentEmbeds store ds) x y ∧ Touched store ds o dirty y := by
  have hm := Schema.coherent_of_accepted hschema
  obtain ⟨type, tree, l, s, ho, hbuilt, hwalk, rfl⟩ :=
    walk_of_afterChange hm hcompile hreach hrun
  rw [hfiltering] at hbuilt
  obtain ⟨x, hstale, hdoc, href⟩ := ChangeTree.exists_stale_of_found hbuilt rfl rfl hm ho hwalk hr
  obtain ⟨y, hxy, hy⟩ := Mapping.touched_of_stale hm hcompile hretraces hstale
  exact ⟨x, y, (Mapping.hasDocument_iff hcompile).mp hdoc, href, hxy, hy⟩

theorem exists_touched_of_found_couple :
    (∀ seg link, Crosses Sample.coupleSchema Sample.spouses.mapping seg link →
      link.Retraces Sample.couple seg) ∧
    ∃ x y, Documented Sample.couple Sample.spouses.mapping x ∧
      Sample.couple.reference x = .ok { type := "Person", identity := .id (.integer 1) } ∧
      ReflTransGen (DocumentEmbeds Sample.couple Sample.spouses.mapping) x y ∧
      Touched Sample.couple Sample.spouses.mapping 1 (some Sample.newName) y :=
  ⟨retraces_couple, exists_touched_of_found (Except.eq_ok_value _) Sample.compile_couple rfl
    (.start (Except.eq_ok_value _)) retraces_couple (Except.eq_ok_value _)
    (show _ ∈ Sample.renamedFound by decide +kernel)⟩

end IndexSync.Engine
