import IndexSync.Proofs.Mapping.Closure
import IndexSync.Proofs.Mapping.Facts
import IndexSync.Proofs.Mapping.Tracing
import IndexSync.Proofs.Path.Elaborate
import IndexSync.Proofs.Tree.Update

/-!
# Compiled mappings and documents

What a compiled mapping calls stale against what its declarations say.

- `Mapping.hasDocument_iff` — the indexed objects are the documented ones.
- `Mapping.embeds_of_documentEmbeds`, `Mapping.stale_of_touched` — no dependency is
  missed: if the backlinks cover the associations, a document is stale as soon as it
  shows something touched.
- `Mapping.documentEmbeds_of_embeds`, `Mapping.touched_of_stale` — none is made up: if
  the backlinks retrace the associations, a stale object shows something touched.
-/

namespace IndexSync

open Relation (ReflTransGen)

variable {schema : Schema} {ds : Declarations} {mapping : Mapping schema}
  {s : ObjectStore schema} {o x y : ObjectId} {dirty : Option DirtySet}

/-- The segments of a path that embeds an entity lead to that entity. -/
theorem joined_cut_of_declares {root : TypeName} {text : String} {steps : List TypedStep}
    (h : Declares schema ds root text steps true) :
    Joined root (cut schema true root steps) (some (endOf root steps)) := by
  generalize hcross : true = crossEnd at h
  cases h with
  | read => cases hcross
  | @embed place path d _ _ _ hsteps =>
      rw [← hcross]
      refine joined_cutFrom_end (fun _ => rfl) fun last hlast => ?_
      obtain ⟨type, htype⟩ :=
        Option.isSome_iff_exists.mp (target?_isSome_of_elaborateText hsteps last hlast)
      have hend : endOf root steps = type := by
        rw [endOf, show steps.getLast? = some last from hlast]
        show (last.element.target?).getD root = type
        rw [htype]
        rfl
      exact ⟨type, htype, hend ▸ hcross.symm⟩

/-- A dependency leads to instances of the type that declares it. -/
theorem isA_root_of_dependsOn (hm : schema.Coherent) {root : TypeName} {other : Dependency}
    {link : Backlink} (h : DependsOn schema ds root other link) (hlink : link.Leads s y x) :
    s.IsA x root := by
  obtain ⟨place, d, -, -, h⟩ := h
  obtain ⟨path, -, h⟩ := Except.bind_eq_ok.mp h
  have hback := Except.mapError_eq_ok.mp h
  obtain ⟨-, hfits⟩ := fits_of_backlinkTo hm hback
  exact hlink.land.of_fits hm hfits

/-- What holds of every association crossed holds along each path that documents show. -/
theorem Shows.backs {P : Segment → Backlink → Prop} {segs : List Segment}
    (h : Shows schema ds segs) (hP : ∀ seg link, Crosses schema ds seg link → P seg link) :
    ∀ seg ∈ segs, ∀ link, seg.Backs schema ds link → P seg link := by
  intro seg hseg link hlink
  exact hP seg link ⟨segs, h, hseg, hlink⟩

/-- A trigger lands where its chain ends. -/
theorem TriggerOf.landing {m : Schema} {table : InverseTable} {root : TypeName} {t : Trigger}
    (h : TriggerOf m ds table root t) : t.landing = chainEnd t.chain t.changed := by
  cases h with
  | path _ htrace ht => exact landing_of_triggersAlong htrace ht
  | inverse => rfl
  | used _ _ _ htrace ht => exact landing_of_triggersAlong htrace ht

namespace Mapping

/-- The document part of an object matters to some document. -/
def HasPart (mapping : Mapping schema) (s : ObjectStore schema) (x : ObjectId) : Prop :=
  ∃ c, s.runtimeType x = .ok c ∧ mapping.hasPart c = true

theorem leadsToPart_of_hasPart (hm : schema.Coherent) (h : mapping.HasPart s x) {type : TypeName}
    (hx : s.IsA x type) : leadsToPart schema mapping.documents type = true := by
  obtain ⟨c, hc, hpart⟩ := h
  exact leadsToPart_of_isA hm hc hpart hx

/-! ## Documents -/

/-- The indexed objects are those that have a document by the declarations. -/
theorem hasDocument_iff (hcompile : compile schema ds = .ok mapping) :
    mapping.HasDocument s x ↔ Documented s ds x := by
  obtain ⟨F, -, rfl⟩ := eq_of_compile hcompile
  constructor
  · rintro ⟨c, hc, hindexed⟩
    obtain ⟨-, hd⟩ := List.mem_filter.mp (of_decide_eq_true hindexed)
    obtain ⟨d, hd, hcond⟩ := List.any_eq_true.mp hd
    obtain ⟨hindex, hfits⟩ : d.indexed = true ∧ schema.fits c d.name = true := by
      simpa using hcond
    exact ⟨d, hd, hindex, c, hc, hfits⟩
  · rintro ⟨d, hd, hindex, c, hc, hfits⟩
    have hconcrete : c ∈ schema.concretes :=
      Schema.mem_concretes_iff.mpr (s.isConcrete_of_runtimeType hc)
    have hdeclared : (ds.types.any fun d => d.indexed && schema.fits c d.name) = true :=
      List.any_eq_true.mpr ⟨d, hd, by simp [hindex, hfits]⟩
    have hmem : c ∈ indexedConcretes schema ds := List.mem_filter.mpr ⟨hconcrete, hdeclared⟩
    exact ⟨c, hc, decide_eq_true hmem⟩

theorem hasPart_of_documented (hm : schema.Coherent) (hcompile : compile schema ds = .ok mapping)
    (h : Documented s ds x) : mapping.HasPart s x := by
  have hclosed := closed_of_compile hm hcompile
  obtain ⟨c, hc, hindexed⟩ := (hasDocument_iff hcompile).mpr h
  have hpart : mapping.hasPart c = true := hclosed.indexed hindexed
  exact ⟨c, hc, hpart⟩

/-! ## What is kept of the facts -/

/-- A trigger is kept if it leads to an object with a part. -/
theorem mem_triggers_of_hasPart (hm : schema.Coherent) {indexed : List TypeName} {F : Facts}
    (h : (ofFacts schema indexed F).HasPart s x) {t : Trigger} (ht : t ∈ F.triggers)
    (hx : s.IsA x t.landing) : t ∈ (ofFacts schema indexed F).triggers := by
  have hlead := leadsToPart_of_hasPart hm h hx
  exact List.mem_filter.mpr ⟨List.mem_eraseDups.mpr ht, hlead⟩

/-- An edge is kept if it leads to an object with a part. -/
theorem mem_embeddings_of_hasPart (hm : schema.Coherent) {indexed : List TypeName} {F : Facts}
    (h : (ofFacts schema indexed F).HasPart s x) {e : Embedding} (he : e ∈ F.embeddings)
    (hx : s.IsA x e.landing) : e ∈ (ofFacts schema indexed F).embeddings := by
  have hlead := leadsToPart_of_hasPart hm h hx
  exact List.mem_filter.mpr ⟨he, hlead⟩

/-! ## No dependency is missed -/

section

variable (hm : schema.Coherent) (hcompile : compile schema ds = .ok mapping)
  (hcovers : ∀ seg link, Crosses schema ds seg link → link.Covers s seg)
include hm hcompile hcovers

/-- An edge leads to every object with a part from every object that it embeds. -/
theorem embeds_of_documentEmbeds (hx : mapping.HasPart s x) (h : DocumentEmbeds s ds x y) :
    mapping.Embeds s y x ∧ mapping.HasPart s y := by
  obtain ⟨root, text, steps, hroot, hdeclares, hlead⟩ := h
  have hclosed := closed_of_compile hm hcompile
  obtain ⟨F, hfacts, rfl⟩ := eq_of_compile hcompile
  obtain ⟨table, htable, -⟩ := facts_eq_ok hfacts
  obtain ⟨triggers, back, htrace, -, hedge⟩ := facts_of_declares hfacts htable hdeclares
  have hy : s.IsA y (endOf root steps) :=
    isA_of_segmentsLead (joined_cut_of_declares hdeclares) hroot hlead
  have hcovered := (Shows.declared hdeclares).backs hcovers
  have hback : chainLeads s back y x :=
    chainLeads_of_segmentsLead htable hcovered htrace rfl hlead
  -- `back` starts at `y`, but the edge was made to land from `root`
  have hland : s.IsA x (chainEnd back root) := by
    by_cases hempty : back = []
    · subst hempty
      exact hroot
    · obtain ⟨links, b, rfl⟩ := (List.eq_nil_or_concat back).resolve_left hempty
      have h := isA_chainEnd hy hback
      simpa [chainEnd] using h
  have hkept := mem_embeddings_of_hasPart hm hx (hedge rfl) hland
  refine ⟨⟨_, hkept, hy, hback⟩, ?_⟩
  obtain ⟨c, hc, hfits⟩ := hy
  exact ⟨c, hc, hclosed.embedded hkept (leadsToPart_of_hasPart hm hx hland)
    (s.isConcrete_of_runtimeType hc) hfits⟩

theorem embeds_of_documentEmbeds_trans (hx : mapping.HasPart s x)
    (h : ReflTransGen (DocumentEmbeds s ds) x y) :
    ReflTransGen (mapping.Embeds s) y x ∧ mapping.HasPart s y := by
  induction h with
  | refl => exact ⟨.refl, hx⟩
  | tail _ hyz ih =>
      obtain ⟨hyx, hy⟩ := ih
      obtain ⟨hzy, hz⟩ := embeds_of_documentEmbeds hm hcompile hcovers hy hyz
      exact ⟨.head hzy hyx, hz⟩

/-- A touched object with a part is stale. -/
theorem stale_of_hasPart (hx : mapping.HasPart s x) (h : Touched s ds o dirty x) :
    Stale mapping s o dirty x := by
  obtain ⟨F, hfacts, rfl⟩ := eq_of_compile hcompile
  obtain ⟨table, htable, -⟩ := facts_eq_ok hfacts
  -- a trigger that leads to the object is kept, and so makes it stale
  have hstale : ∀ {t : Trigger}, t ∈ F.triggers → t.landing = chainEnd t.chain t.changed →
      s.IsA o t.changed → Alters dirty t.dirty → chainLeads s t.chain o x →
      Stale (ofFacts schema (indexedConcretes schema ds) F) s o dirty x := by
    intro t ht hland ho halter hlead
    refine .triggered (mem_triggers_of_hasPart hm hx ht ?_) ho halter hlead
    rw [hland]
    exact isA_chainEnd ho hlead
  cases h with
  | @path root text steps crossEnd _ hdeclares htouch =>
      obtain ⟨triggers, back, htrace, hsub, -⟩ := facts_of_declares hfacts htable hdeclares
      have hcovered := (Shows.declared hdeclares).backs hcovers
      obtain ⟨t, ht, ho, halter, hlead⟩ :=
        exists_trigger_of_touchesAlong htable hcovered htrace rfl htouch
      exact hstale (hsub ht) (landing_of_triggersAlong htrace ht) ho halter hlead
  | @inverse root other link _ hdepends ho hlink halter =>
      obtain ⟨hmem, -⟩ := facts_of_dependsOn hfacts htable hdepends
      exact hstale hmem rfl ho halter ⟨x, hlink, rfl⟩
  | @used root other link path steps y _ hdepends hpath hsteps hlink htouch =>
      obtain ⟨-, hused⟩ := facts_of_dependsOn hfacts htable hdepends
      obtain ⟨steps', triggers, back, hsteps', htrace, hsub⟩ := hused path hpath
      cases hsteps.symm.trans hsteps'
      have hcovered := (Shows.used hdepends hpath hsteps).backs hcovers
      have hchain : chainLeads s [link] y x := ⟨x, hlink, rfl⟩
      obtain ⟨t, ht, ho, halter, hlead⟩ :=
        exists_trigger_of_touchesAlong htable hcovered htrace hchain htouch
      exact hstale (hsub ht) (landing_of_triggersAlong htrace ht) ho halter hlead

/-- A document is stale if it shows, itself or through what it embeds, something that
the change touches. -/
theorem stale_of_touched (hx : Documented s ds x) (hxy : ReflTransGen (DocumentEmbeds s ds) x y)
    (hy : Touched s ds o dirty y) : Stale mapping s o dirty x := by
  have hdocument : mapping.HasPart s x := hasPart_of_documented hm hcompile hx
  obtain ⟨hyx, hpart⟩ := embeds_of_documentEmbeds_trans hm hcompile hcovers hdocument hxy
  have hstale : Stale mapping s o dirty y := stale_of_hasPart hm hcompile hcovers hpart hy
  exact hstale.of_embeds hyx

end

/-! ## No dependency is made up -/

section

variable (hm : schema.Coherent) (hcompile : compile schema ds = .ok mapping)
  (hretraces : ∀ seg link, Crosses schema ds seg link → link.Retraces s seg)
include hm hcompile hretraces

/-- An edge leads only to objects whose document part embeds the first one. -/
theorem documentEmbeds_of_embeds (h : mapping.Embeds s y x) : DocumentEmbeds s ds x y := by
  obtain ⟨e, he, hy, hlead⟩ := h
  obtain ⟨F, hfacts, rfl⟩ := eq_of_compile hcompile
  obtain ⟨table, htable, -⟩ := facts_eq_ok hfacts
  obtain ⟨root, text, steps, triggers, back, hdeclares, htrace, rfl⟩ :=
    embeddingOf_of_mem hfacts htable (mem_facts_of_ofFacts.2 e he)
  have hretraced := (Shows.declared hdeclares).backs hretraces
  have hjoined := joined_cut_of_declares hdeclares
  obtain ⟨x', hroot, hsegs, hx'⟩ :=
    segmentsLead_of_chainLeads hm htable hjoined hretraced htrace hy hlead
  cases hx'
  exact ⟨root, text, steps, hroot, hdeclares, hsegs⟩

theorem documentEmbeds_of_embeds_trans (h : ReflTransGen (mapping.Embeds s) y x) :
    ReflTransGen (DocumentEmbeds s ds) x y := by
  induction h with
  | refl => exact .refl
  | tail _ hxz ih => exact .head (documentEmbeds_of_embeds hm hcompile hretraces hxz) ih

/-- A kept trigger leads only to objects that the change touches. -/
theorem touched_of_trigger {t : Trigger} (ht : t ∈ mapping.triggers) (ho : s.IsA o t.changed)
    (halter : Alters dirty t.dirty) (hlead : chainLeads s t.chain o x) :
    Touched s ds o dirty x := by
  obtain ⟨F, hfacts, rfl⟩ := eq_of_compile hcompile
  obtain ⟨table, htable, -⟩ := facts_eq_ok hfacts
  obtain ⟨root, horigin⟩ :=
    triggerOf_of_mem hfacts htable (mem_facts_of_ofFacts.1 t ht)
  cases horigin with
  | @path text steps crossEnd triggers back _ hdeclares htrace ht =>
      obtain ⟨finish, hjoined⟩ := @exists_joined_cut schema crossEnd root steps
      have hretraced := (Shows.declared hdeclares).backs hretraces
      obtain ⟨x', hroot, hx', htouch⟩ :=
        touchesAlong_of_trigger hm htable hjoined hretraced htrace ht ho halter hlead
      cases hx'
      exact .path hroot hdeclares htouch
  | @inverse other link hdepends =>
      obtain ⟨x', hlink, rfl⟩ := hlead
      exact .inverse (isA_root_of_dependsOn hm hdepends hlink) hdepends ho hlink halter
  | @used other link path steps triggers back _ hdepends hpath hsteps htrace ht =>
      obtain ⟨finish, hjoined⟩ := @exists_joined_cut schema false other.type steps
      have hretraced := (Shows.used hdepends hpath hsteps).backs hretraces
      obtain ⟨y, -, ⟨x', hlink, rfl⟩, htouch⟩ :=
        touchesAlong_of_trigger hm htable hjoined hretraced htrace ht ho halter hlead
      -- beyond the used path, the chain goes on with the dependency's own link
      exact .used (isA_root_of_dependsOn hm hdepends hlink) hdepends hpath hsteps hlink htouch

/-- A stale object shows, itself or through what it embeds, something that the change
touches. -/
theorem touched_of_stale (h : Stale mapping s o dirty x) :
    ∃ y, ReflTransGen (DocumentEmbeds s ds) x y ∧ Touched s ds o dirty y := by
  obtain ⟨t, ht, ho, halter, y, hlead, hyx⟩ := h.exists_trigger
  exact ⟨y, documentEmbeds_of_embeds_trans hm hcompile hretraces hyx,
    touched_of_trigger hm hcompile hretraces ht ho halter hlead⟩

end

end Mapping

end IndexSync
