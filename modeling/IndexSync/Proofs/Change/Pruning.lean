import IndexSync.Proofs.Mapping.Compiled
import IndexSync.Proofs.Mapping.Saturation
import IndexSync.Proofs.Change.Answered
import IndexSync.Sample.Shelves

/-!
# Leaving out what reaches no document

A mapping keeps only the facts that lead to a document part, and no answer depends on the
others.

- `Mapping.unpruned` — the mapping with all facts of its declarations.
- `Mapping.Prunes` — one mapping keeps of another one the facts that lead to a part.
- `Mapping.Prunes.stale`, `Mapping.Prunes.embeds` — whatever has a part is found through the
  facts that are kept.
- `Mapping.Prunes.smooth` — what goes well with more facts does so with fewer.
- `Engine.documents_least_and_pruning_keeps_answers` — the types with a part are the least
  ones closed under embedding, and answers of the whole mapping are those of the pruned one.
-/

namespace IndexSync

open Relation (ReflTransGen)

variable {schema : Schema} {ds : Declarations} {mapping whole : Mapping schema} {F : Facts}

namespace Mapping

/-- The mapping with all facts, whether they lead to a document part or not. -/
def unpruned (mapping : Mapping schema) (F : Facts) : Mapping schema :=
  { mapping with triggers := F.triggers.eraseDups, embeddings := F.embeddings }

/-- The types are those of the whole mapping, and the facts those of its facts that lead to
a document part. -/
structure Prunes (mapping whole : Mapping schema) : Prop where
  indexed : mapping.indexed = whole.indexed
  documents : mapping.documents = whole.documents
  triggers : ∀ t, t ∈ mapping.triggers ↔
    t ∈ whole.triggers ∧ leadsToPart schema whole.documents t.landing = true
  embeddings : ∀ e, e ∈ mapping.embeddings ↔
    e ∈ whole.embeddings ∧ leadsToPart schema whole.documents e.landing = true
  /-- Triggers land where their chains end. -/
  landing : ∀ t ∈ whole.triggers, t.landing = chainEnd t.chain t.changed

/-- A compiled mapping prunes the one with all facts. -/
theorem prunes_of_compile (hfacts : facts schema ds = .ok F)
    (hcompile : compile schema ds = .ok mapping) : mapping.Prunes (mapping.unpruned F) := by
  obtain ⟨F', hfacts', rfl⟩ := eq_of_compile hcompile
  cases hfacts.symm.trans hfacts'
  obtain ⟨table, htable, -⟩ := facts_eq_ok hfacts
  refine ⟨rfl, rfl, fun t => List.mem_filter, fun e => List.mem_filter, ?_⟩
  intro t ht
  obtain ⟨root, horigin⟩ := triggerOf_of_mem hfacts htable (List.mem_eraseDups.mp ht)
  exact horigin.landing

/-- The types with a part are closed under all edges, and not just under those kept. -/
theorem closed_unpruned (hm : schema.Coherent) (hfacts : facts schema ds = .ok F)
    (hcompile : compile schema ds = .ok mapping) : (mapping.unpruned F).Closed := by
  obtain ⟨F', hfacts', rfl⟩ := eq_of_compile hcompile
  cases hfacts.symm.trans hfacts'
  exact closed_of_facts hm hfacts rfl rfl (List.Subset.refl _)

namespace Prunes

variable (h : mapping.Prunes whole) {s : ObjectStore schema} {o x y : ObjectId}
  {dirty : Option DirtySet}
include h

/-! ## Fewer facts do less -/

theorem hasPart : mapping.hasPart = whole.hasPart := by
  unfold Mapping.hasPart
  rw [h.documents]

theorem hasDocument : mapping.HasDocument s x ↔ whole.HasDocument s x := by
  unfold HasDocument isIndexed
  rw [h.indexed]

theorem edgeMoves_mono : ∀ ms, mapping.edgeMoves s x ms → whole.edgeMoves s x ms := by
  rintro _ ⟨e, he, hx, rfl⟩
  exact ⟨e, ((h.embeddings e).mp he).1, hx, rfl⟩

theorem triggerMoves_mono : ∀ ms, mapping.triggerMoves s o dirty ms →
    whole.triggerMoves s o dirty ms := by
  rintro _ ⟨t, ht, ho, hhit, rfl⟩
  exact ⟨t, ((h.triggers t).mp ht).1, ho, hhit, rfl⟩

theorem whole_embeds (hxy : mapping.Embeds s x y) : whole.Embeds s x y := by
  obtain ⟨e, he, hx, hlead⟩ := hxy
  exact ⟨e, ((h.embeddings e).mp he).1, hx, hlead⟩

theorem whole_stale (hy : Stale mapping s o dirty y) : Stale whole s o dirty y := by
  induction hy with
  | triggered ht ho hhit hlead => exact .triggered ((h.triggers _).mp ht).1 ho hhit hlead
  | embedding _ he hx hlead ih => exact .embedding ih ((h.embeddings _).mp he).1 hx hlead

theorem smoothPart (hx : whole.SmoothPart s x) : mapping.SmoothPart s x where
  safe move v hattempt :=
    hx.safe move v (hattempt.mono h.hasPart h.edgeMoves_mono h.edgeMoves_mono)
  reference hdoc := hx.reference (h.hasDocument.mp hdoc)

theorem smooth (hsmooth : whole.Smooth s o dirty) : mapping.Smooth s o dirty where
  safe move v hattempt :=
    hsmooth.safe move v (hattempt.mono h.hasPart h.triggerMoves_mono h.triggerMoves_mono)
  part x hx := h.smoothPart (hsmooth.part x (h.whole_stale hx))

/-! ## What has a part is reached through the facts that are kept -/

section

variable (hm : schema.Coherent) (hclosed : whole.Closed)
include hm hclosed

/-- An edge to an object with a part is kept, unless it leads nowhere else, and the object
that is embedded has a part, too. -/
theorem embeds_or_eq (hy : whole.HasPart s y) (hxy : whole.Embeds s x y) :
    (mapping.Embeds s x y ∨ x = y) ∧ whole.HasPart s x := by
  obtain ⟨e, he, hx, hlead⟩ := hxy
  obtain ⟨d, hd, hpart⟩ := hy
  have hx' : whole.HasPart s x := by
    obtain ⟨c, hc, hfits⟩ := hx
    exact ⟨c, hc, hclosed.hasPart_of_edge hm he hc hfits hlead hd hpart⟩
  refine ⟨?_, hx'⟩
  by_cases hempty : e.chain = []
  · rw [hempty] at hlead
    exact .inr hlead
  · have hland : s.IsA y e.landing := hclosed.isA_landing he hempty hx hlead
    have hkept := leadsToPart_of_isA hm hd hpart hland
    exact .inl ⟨e, (h.embeddings e).mpr ⟨he, hkept⟩, hx, hlead⟩

theorem embeds (hy : whole.HasPart s y) (hxy : ReflTransGen (whole.Embeds s) x y) :
    ReflTransGen (mapping.Embeds s) x y ∧ whole.HasPart s x := by
  -- from the last object back, as having a part is inherited against the edges
  induction hxy using ReflTransGen.head_induction_on with
  | refl => exact ⟨.refl, hy⟩
  | head hxz _ ih =>
      obtain ⟨hzy, hz⟩ := ih
      obtain ⟨hxz | rfl, hx⟩ := h.embeds_or_eq hm hclosed hz hxz
      · exact ⟨.head hxz hzy, hx⟩
      · exact ⟨hzy, hx⟩

theorem stale (hy : whole.HasPart s y) (hstale : Stale whole s o dirty y) :
    Stale mapping s o dirty y := by
  obtain ⟨t, ht, ho, hhit, x, hlead, hxy⟩ := hstale.exists_trigger
  obtain ⟨hxy, hx⟩ := h.embeds hm hclosed hy hxy
  have hland : s.IsA x t.landing := by
    rw [h.landing t ht]
    exact isA_chainEnd ho hlead
  have hkept := leadsToPart_of_hasPart hm hx hland
  exact (Stale.triggered ((h.triggers t).mpr ⟨ht, hkept⟩) ho hhit hlead).of_embeds hxy

/-- The same documents are stale. -/
theorem stale_iff (hdoc : whole.HasDocument s y) :
    Stale mapping s o dirty y ↔ Stale whole s o dirty y := by
  obtain ⟨d, hd, hindexed⟩ := hdoc
  exact ⟨h.whole_stale, h.stale hm hclosed ⟨d, hd, hclosed.indexed hindexed⟩⟩

theorem embeds_iff (hdoc : whole.HasDocument s y) :
    ReflTransGen (mapping.Embeds s) x y ↔ ReflTransGen (whole.Embeds s) x y := by
  obtain ⟨d, hd, hindexed⟩ := hdoc
  constructor
  · intro hxy
    exact hxy.lift id fun _ _ => h.whole_embeds
  · intro hxy
    exact (h.embeds hm hclosed ⟨d, hd, hclosed.indexed hindexed⟩ hxy).1

end

end Prunes

end Mapping

/-! ## Answers -/

namespace Engine

variable {defs : List TypeDef} {settings : Settings} {store : ObjectStore schema} {o : ObjectId}
  {dirty : Option DirtySet} {found : EntitySet}

section

variable (hm : schema.Coherent) (hclosed : mapping.Closed) (hwhole : whole.Closed)
  (h : mapping.Prunes whole)
include hm hclosed hwhole h

theorem changeAnswer_of_prunes (hanswer : changeAnswer whole settings store o dirty = .ok found) :
    changeAnswer mapping settings store o dirty = .ok found := by
  obtain ⟨ho, hsmooth, hfound⟩ := (changeAnswer_eq_ok_iff hm hwhole).mp hanswer
  refine (changeAnswer_eq_ok_iff hm hclosed).mpr ⟨ho, h.smooth hsmooth, fun r => ?_⟩
  rw [hfound]
  refine exists_congr fun y => ?_
  rw [h.hasDocument]
  by_cases hdoc : whole.HasDocument store y
  · rw [h.stale_iff hm hwhole hdoc]
  · simp [hdoc]

theorem deleteAnswer_of_prunes (hanswer : deleteAnswer whole settings store o = .ok found) :
    deleteAnswer mapping settings store o = .ok found := by
  obtain ⟨ho, hsmooth, hparts, hfound⟩ := (deleteAnswer_eq_ok_iff hm hwhole).mp hanswer
  refine (deleteAnswer_eq_ok_iff hm hclosed).mpr
    ⟨ho, h.smooth hsmooth, fun y hy => ?_, fun r => ?_⟩
  · exact h.smoothPart (hparts y (hy.lift id fun _ _ => h.whole_embeds))
  · rw [hfound]
    refine exists_congr fun y => ?_
    rw [h.hasDocument]
    by_cases hdoc : whole.HasDocument store y
    · rw [h.stale_iff hm hwhole hdoc, h.embeds_iff hm hwhole hdoc]
    · simp [hdoc]

end

/-- A concrete type has a document part if it is indexed, or if edges of the declarations
lead from it to an indexed type; and types that are added one at a time, from the indexed
ones on, come to an end with these.  What an engine with all facts of the declarations
answers, an engine with the compiled mapping does. -/
theorem documents_least_and_pruning_keeps_answers
    (hschema : Schema.ofDefinitions defs = .ok schema)
    (hcompile : Mapping.compile schema ds = .ok mapping) :
    ∃ F, Mapping.facts schema ds = .ok F ∧
      (∀ c, mapping.hasPart c = true ↔ schema.isConcrete c = true ∧
        (mapping.isIndexed c = true ∨
          ∃ es ≠ [], es ⊆ F.embeddings ∧ schema.Climbs mapping.indexed c es)) ∧
      Acc (fun more documents => Adds schema F.embeddings documents more) mapping.indexed ∧
      (∀ documents, ReflTransGen (Adds schema F.embeddings) mapping.indexed documents →
        (∀ more, ¬ Adds schema F.embeddings documents more) →
        ∀ c, c ∈ documents ↔ mapping.hasPart c = true) ∧
      ∀ settings e, Reached schema ds settings e →
        ∀ (store : ObjectStore schema) (o : ObjectId) (found : EntitySet),
          (∀ dirty, ((afterChange store o dirty).run.run
              (fresh (mapping.unpruned F) settings)).1 = .ok found →
            ((afterChange store o dirty).run.run e).1 = .ok found) ∧
          (((afterDelete store o).run.run (fresh (mapping.unpruned F) settings)).1 = .ok found →
            ((afterDelete store o).run.run e).1 = .ok found) := by
  have hm := Schema.coherent_of_accepted hschema
  have hclosed := Mapping.closed_of_compile hm hcompile
  obtain ⟨F, hfacts, hmapping⟩ := Mapping.eq_of_compile hcompile
  have hwhole := Mapping.closed_unpruned hm hfacts hcompile
  have hprunes := Mapping.prunes_of_compile hfacts hcompile
  have hselect : schema.Selects mapping.indexed := by
    rw [hmapping]
    exact selects_filter _
  have hpart : ∀ c, c ∈ saturate schema F.embeddings mapping.indexed ↔
      mapping.hasPart c = true := by
    intro c
    rw [hmapping]
    exact decide_eq_true_iff.symm
  refine ⟨F, hfacts, fun c => ?_, ?_, fun documents hadds hdone c => ?_,
    fun settings e hreach store o found => ⟨fun dirty hrun => ?_, fun hrun => ?_⟩⟩
  · rw [← hpart, mem_saturate_iff hm hselect, exists_climbs_iff, Mapping.isIndexed,
      decide_eq_true_iff]
  · exact acc_adds (hselect.nodup hschema) hselect.subset
  · exact (mem_iff_of_adds hm hselect hadds hdone).trans (hpart c)
  · obtain ⟨_, hanswer, -⟩ := answers_afterChange store o dirty _ reliable_fresh
    rw [hanswer] at hrun
    rw [run_afterChange hcompile hreach]
    exact changeAnswer_of_prunes hm hclosed hwhole hprunes hrun
  · obtain ⟨_, hanswer, -⟩ := answers_afterDelete store o _ reliable_fresh
    rw [hanswer] at hrun
    rw [run_afterDelete hcompile hreach]
    exact deleteAnswer_of_prunes hm hclosed hwhole hprunes hrun

/-- What a new name of the author calls for if the edge to the fans is kept. -/
def wholeFound : EntitySet :=
  ((afterChange Sample.shelved 3 (some Sample.newName)).run.run
    (fresh (Sample.shelvesMapping.unpruned Sample.shelvesFacts) {})).1.value (by decide +kernel)

/-- Authors have a part, as books embed them and shelves embed the books, and fans have
none; the edge to the fans is left out, and a new name of the author calls for the shelf
with that edge or without. -/
theorem documents_least_and_pruning_keeps_answers_shelves :
    ∃ F, Mapping.facts Sample.shelvesSchema Sample.shelves.mapping = .ok F ∧
      F.embeddings.length = 3 ∧ Sample.shelvesMapping.embeddings.length = 2 ∧
      (∃ es ≠ [], es ⊆ F.embeddings ∧
        Sample.shelvesSchema.Climbs Sample.shelvesMapping.indexed "Author" es) ∧
      (¬ ∃ es ≠ [], es ⊆ F.embeddings ∧
        Sample.shelvesSchema.Climbs Sample.shelvesMapping.indexed "Fan" es) ∧
      ∃ found : EntitySet, found.toList = [{ type := "Shelf", identity := .id (.text "S") }] ∧
        ((afterChange Sample.shelved 3 (some Sample.newName)).run.run
          (fresh (Sample.shelvesMapping.unpruned F) {})).1 = .ok found ∧
        ((afterChange Sample.shelved 3 (some Sample.newName)).run.run
          Sample.shelvesEngine).1 = .ok found := by
  have hschema : Schema.ofDefinitions Sample.shelves.types = .ok Sample.shelvesSchema :=
    Except.eq_ok_value _
  obtain ⟨F, hfacts, hparts, -, -, hanswers⟩ :=
    documents_least_and_pruning_keeps_answers hschema Sample.compile_shelves
  obtain rfl : Sample.shelvesFacts = F :=
    Except.ok.inj ((Except.eq_ok_value _).symm.trans hfacts)
  have hrun : ((afterChange Sample.shelved 3 (some Sample.newName)).run.run
      (fresh (Sample.shelvesMapping.unpruned Sample.shelvesFacts) {})).1 = .ok wholeFound :=
    Except.eq_ok_value _
  have hauthor : Sample.shelvesMapping.isIndexed "Author" = false ∧
      Sample.shelvesMapping.hasPart "Author" = true := by decide +kernel
  have hfan : Sample.shelvesSchema.isConcrete "Fan" = true ∧
      Sample.shelvesMapping.hasPart "Fan" = false := by decide +kernel
  refine ⟨_, hfacts, by decide +kernel, by decide +kernel, ?_, ?_, wholeFound, by decide +kernel,
    hrun, (hanswers {} _ (.start (Except.eq_ok_value _)) _ _ _).1 _ hrun⟩
  · exact ((hparts "Author").mp hauthor.2).2.resolve_left (by simp [hauthor.1])
  · intro hclimbs
    have hpart := (hparts "Fan").mpr ⟨hfan.1, .inr hclimbs⟩
    rw [hfan.2] at hpart
    cases hpart

end Engine

end IndexSync
