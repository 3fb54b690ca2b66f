import IndexSync.Proofs.Mapping.Within
import IndexSync.Proofs.Change.Answered
import IndexSync.Proofs.History
import IndexSync.Sample.Teams

/-!
# The order of declarations

Declarations may be written in any order.

- `Declarations.Reorders` — the same declarations in another order, the lists inside them
  reordered, too.
- `Mapping.Alike` — mappings with the same types and the same facts, in whatever order;
  reordered declarations are compiled to such (`Mapping.exists_alike`).
- `Mapping.Alike.stale`, `Mapping.Alike.smooth` — what a change makes stale, and whether it
  goes well, does not depend on the order of the facts.
- `Engine.alike_of_reorders` — mappings of reordered declarations against each other.
-/

namespace IndexSync

open Relation (ReflTransGen)

variable {schema : Schema} {ds ds' : Declarations} {mapping mapping' : Mapping schema}

/-- The same members in another order, each changed in the way given. -/
def Reorders {α : Type} (R : α → α → Prop) (l l' : List α) : Prop :=
  ∃ mid, l.Perm mid ∧ List.Forall₂ R mid l'

structure Dependency.Reorders (o o' : Dependency) : Prop where
  type : o.type = o'.type
  inversePath : o.inversePath = o'.inversePath
  used : o.used.Perm o'.used

structure PartDecl.Reorders (d d' : PartDecl) : Prop where
  name : d.name = d'.name
  indexed : d.indexed = d'.indexed
  read : d.read.Perm d'.read
  embed : d.embed.Perm d'.embed
  other : IndexSync.Reorders Dependency.Reorders d.other d'.other

/-- The same declarations in another order. -/
structure Declarations.Reorders (ds ds' : Declarations) : Prop where
  types : IndexSync.Reorders PartDecl.Reorders ds.types ds'.types
  inverses : ds.inverses.Perm ds'.inverses

/-- The declarations read from the last to the first. -/
def Declarations.reversed (ds : Declarations) : Declarations where
  types := (ds.types.map fun d => { d with
    read := d.read.reverse
    embed := d.embed.reverse
    other := (d.other.map fun o => { o with used := o.used.reverse }).reverse }).reverse
  inverses := ds.inverses.reverse

/-! ## No declaration is lost -/

section

variable {α : Type} {R : α → α → Prop} {l l' : List α}

theorem Reorders.exists_right (h : Reorders R l l') {a : α} (ha : a ∈ l) : ∃ b ∈ l', R a b := by
  obtain ⟨mid, hperm, hmid⟩ := h
  exact hmid.exists_right (hperm.mem_iff.mp ha)

theorem Reorders.exists_left (h : Reorders R l l') {b : α} (hb : b ∈ l') : ∃ a ∈ l, R a b := by
  obtain ⟨mid, hperm, hmid⟩ := h
  obtain ⟨a, ha, hab⟩ := hmid.exists_left hb
  exact ⟨a, hperm.mem_iff.mpr ha, hab⟩

theorem reorders_reverse_map {f : α → α} (h : ∀ a, R a (f a)) (l : List α) :
    Reorders R l (l.map f).reverse := by
  refine ⟨l.reverse, l.reverse_perm.symm, ?_⟩
  rw [← List.map_reverse, List.forall₂_map_right_iff]
  exact List.forall₂_same.mpr fun a _ => h a

end

theorem Declarations.reorders_reversed (ds : Declarations) : ds.Reorders ds.reversed := by
  refine ⟨reorders_reverse_map (fun d => ?_) _, ds.inverses.reverse_perm.symm⟩
  refine ⟨rfl, rfl, d.read.reverse_perm.symm, d.embed.reverse_perm.symm, ?_⟩
  exact reorders_reverse_map (fun o => ⟨rfl, rfl, o.used.reverse_perm.symm⟩) _

theorem Dependency.Reorders.within {o o' : Dependency} (h : o.Reorders o') :
    o.Within o' ∧ o'.Within o :=
  ⟨⟨h.type, h.inversePath, h.used.subset⟩, ⟨h.type.symm, h.inversePath.symm, h.used.symm.subset⟩⟩

theorem PartDecl.Reorders.within {d d' : PartDecl} (h : d.Reorders d') :
    d.Within d' ∧ d'.Within d := by
  refine ⟨⟨h.name, h.indexed, h.read.subset, h.embed.subset, fun o ho => ?_⟩,
    ⟨h.name.symm, h.indexed.symm, h.read.symm.subset, h.embed.symm.subset, fun o ho => ?_⟩⟩
  · obtain ⟨o', ho', hreorders⟩ := h.other.exists_right ho
    exact ⟨o', ho', hreorders.within.1⟩
  · obtain ⟨o', ho', hreorders⟩ := h.other.exists_left ho
    exact ⟨o', ho', hreorders.within.2⟩

theorem Declarations.Reorders.within (h : ds.Reorders ds') : ds.Within ds' ∧ ds'.Within ds := by
  refine ⟨⟨fun d hd => ?_, fun pair => h.inverses.mem_iff⟩,
    ⟨fun d hd => ?_, fun pair => h.inverses.mem_iff.symm⟩⟩
  · obtain ⟨d', hd', hreorders⟩ := h.types.exists_right hd
    exact ⟨d', hd', hreorders.within.1⟩
  · obtain ⟨d', hd', hreorders⟩ := h.types.exists_left hd
    exact ⟨d', hd', hreorders.within.2⟩

/-! ## Mappings with the same facts -/

namespace Mapping

/-- The same types with a document or a document part, and the same facts. -/
structure Alike (mapping mapping' : Mapping schema) : Prop where
  indexed : mapping.indexed = mapping'.indexed
  documents : mapping.documents = mapping'.documents
  triggers : ∀ t, t ∈ mapping.triggers ↔ t ∈ mapping'.triggers
  embeddings : ∀ e, e ∈ mapping.embeddings ↔ e ∈ mapping'.embeddings

theorem Alike.symm (h : mapping.Alike mapping') : mapping'.Alike mapping :=
  ⟨h.indexed.symm, h.documents.symm, fun t => (h.triggers t).symm, fun e => (h.embeddings e).symm⟩

end Mapping

theorem Schema.Selects.ext {types types' : List TypeName} (h : schema.Selects types)
    (h' : schema.Selects types') (hmem : ∀ c, c ∈ types ↔ c ∈ types') : types = types' := by
  rw [h, h']
  exact List.filter_congr fun c _ => decide_eq_decide.mpr (hmem c)

theorem saturateStep_congr {es es' : List Embedding} (h : ∀ e, e ∈ es ↔ e ∈ es')
    (documents : List TypeName) :
    saturateStep schema es documents = saturateStep schema es' documents := by
  refine (selects_filter _).ext (selects_filter _) fun c => ?_
  simp only [← saturateStep.eq_def]
  rw [mem_saturateStep, mem_saturateStep]
  simp only [h]

theorem saturate_congr (schema : Schema) {es es' : List Embedding} (h : ∀ e, e ∈ es ↔ e ∈ es')
    (indexed : List TypeName) : saturate schema es indexed = saturate schema es' indexed := by
  suffices go : ∀ rounds documents,
      saturate.go schema es rounds documents = saturate.go schema es' rounds documents from go _ _
  intro rounds
  induction rounds with
  | zero => exact fun _ => rfl
  | succ rounds ih =>
      intro documents
      rw [saturate.go, saturate.go, saturateStep_congr h]
      simp only [ih]

namespace Mapping

theorem indexedConcretes_of_within (h : ds.Within ds') (h' : ds'.Within ds) :
    indexedConcretes schema ds = indexedConcretes schema ds' := by
  have hmono : ∀ {ds ds' : Declarations}, ds.Within ds' → ∀ c,
      (ds.types.any fun d => d.indexed && schema.fits c d.name) = true →
      (ds'.types.any fun d => d.indexed && schema.fits c d.name) = true := by
    intro ds ds' hwithin c hany
    obtain ⟨d, hd, hcond⟩ := List.any_eq_true.mp hany
    obtain ⟨d', hd', hle⟩ := hwithin.types d hd
    rw [hle.name, hle.indexed] at hcond
    exact List.any_eq_true.mpr ⟨d', hd', hcond⟩
  exact List.filter_congr fun c _ => Bool.eq_iff_iff.mpr ⟨hmono h c, hmono h' c⟩

/-- Mappings made of the same facts. -/
theorem alike_ofFacts {indexed : List TypeName} {F G : Facts} (h : F.Within G) (h' : G.Within F) :
    (ofFacts schema indexed F).Alike (ofFacts schema indexed G) := by
  have htriggers : ∀ t, t ∈ F.triggers ↔ t ∈ G.triggers := fun t =>
    ⟨fun ht => h.triggers ht, fun ht => h'.triggers ht⟩
  have hembeddings : ∀ e, e ∈ F.embeddings ↔ e ∈ G.embeddings := fun e =>
    ⟨fun he => h.embeddings he, fun he => h'.embeddings he⟩
  have hdocuments := saturate_congr schema hembeddings indexed
  refine ⟨rfl, hdocuments, fun t => ?_, fun e => ?_⟩
  · simp only [ofFacts, hdocuments, List.mem_filter, List.mem_eraseDups, htriggers]
  · simp only [ofFacts, hdocuments, List.mem_filter, hembeddings]

/-- Declarations with the same members are accepted alike. -/
theorem exists_alike (h : ds.Within ds') (h' : ds'.Within ds)
    (hcompile : compile schema ds = .ok mapping) :
    ∃ mapping', compile schema ds' = .ok mapping' ∧ mapping.Alike mapping' := by
  obtain ⟨F, hF, rfl⟩ := eq_of_compile hcompile
  obtain ⟨G, hG, hle⟩ := includes_facts h' F hF
  obtain ⟨F', hF', hge⟩ := includes_facts h G hG
  cases hF.symm.trans hF'
  refine ⟨ofFacts schema (indexedConcretes schema ds') G, ?_, ?_⟩
  · rw [compile, hG]
    rfl
  · rw [← indexedConcretes_of_within h h']
    exact alike_ofFacts hge hle

/-! ## What a change makes stale -/

namespace Alike

variable (h : mapping.Alike mapping') {s : ObjectStore schema} {o x y : ObjectId}
  {dirty : Option DirtySet}
include h

theorem embeds : mapping.Embeds s x y ↔ mapping'.Embeds s x y :=
  exists_congr fun e => and_congr_left' (h.embeddings e)

theorem hasDocument : mapping.HasDocument s x ↔ mapping'.HasDocument s x := by
  unfold HasDocument isIndexed
  rw [h.indexed]

theorem hasPart : mapping.hasPart = mapping'.hasPart := by
  unfold Mapping.hasPart
  rw [h.documents]

theorem edgeMoves : mapping.edgeMoves s x = mapping'.edgeMoves s x :=
  funext fun _ => propext (exists_congr fun e => and_congr_left' (h.embeddings e))

theorem triggerMoves : mapping.triggerMoves s o dirty = mapping'.triggerMoves s o dirty :=
  funext fun _ => propext (exists_congr fun t => and_congr_left' (h.triggers t))

theorem attempts : mapping.Attempts s = mapping'.Attempts s := by
  unfold Attempts
  rw [viable_congr h.hasPart]

/-- The same objects are stale. -/
theorem stale : Stale mapping s o dirty x → Stale mapping' s o dirty x := by
  intro hx
  induction hx with
  | triggered ht ho hhit hlead => exact .triggered ((h.triggers _).mp ht) ho hhit hlead
  | embedding _ he hx hlead ih => exact .embedding ih ((h.embeddings _).mp he) hx hlead

theorem stale_iff : Stale mapping s o dirty x ↔ Stale mapping' s o dirty x :=
  ⟨h.stale, h.symm.stale⟩

theorem smoothPart (hx : mapping.SmoothPart s x) : mapping'.SmoothPart s x where
  safe move v hattempt := by
    rw [← h.attempts, ← h.edgeMoves] at hattempt
    exact hx.safe move v hattempt
  reference hdoc := hx.reference (h.hasDocument.mpr hdoc)

theorem smooth (hsmooth : mapping.Smooth s o dirty) : mapping'.Smooth s o dirty where
  safe move v hattempt := by
    rw [← h.attempts, ← h.triggerMoves, ← h.triggerMoves] at hattempt
    exact hsmooth.safe move v hattempt
  part x hx := h.smoothPart (hsmooth.part x (h.stale_iff.mpr hx))

end Alike

end Mapping

/-! ## Answers -/

namespace Engine

variable {defs : List TypeDef} {settings : Settings} {e e' : Engine schema}
  {store : ObjectStore schema} {o : ObjectId} {dirty : Option DirtySet} {found : EntitySet}

section

variable (hm : schema.Coherent) (hclosed : mapping.Closed) (hclosed' : mapping'.Closed)
include hm hclosed hclosed'

theorem changeAnswer_of_alike (h : mapping.Alike mapping')
    (hanswer : changeAnswer mapping settings store o dirty = .ok found) :
    changeAnswer mapping' settings store o dirty = .ok found := by
  obtain ⟨ho, hsmooth, hfound⟩ := (changeAnswer_eq_ok_iff hm hclosed).mp hanswer
  refine (changeAnswer_eq_ok_iff hm hclosed').mpr ⟨ho, h.smooth hsmooth, fun r => ?_⟩
  simp only [hfound, h.stale_iff, h.hasDocument]

theorem deleteAnswer_of_alike (h : mapping.Alike mapping')
    (hanswer : deleteAnswer mapping settings store o = .ok found) :
    deleteAnswer mapping' settings store o = .ok found := by
  have hembeds : mapping.Embeds store = mapping'.Embeds store :=
    funext fun _ => funext fun _ => propext h.embeds
  obtain ⟨ho, hsmooth, hparts, hfound⟩ := (deleteAnswer_eq_ok_iff hm hclosed).mp hanswer
  refine (deleteAnswer_eq_ok_iff hm hclosed').mpr
    ⟨ho, h.smooth hsmooth, fun y hy => ?_, fun r => ?_⟩
  · rw [← hembeds] at hy
    exact h.smoothPart (hparts y hy)
  · simp only [hfound, h.stale_iff, h.hasDocument, hembeds]

end

/-- Declarations that differ in their order alone are accepted alike.  If they are, their
mappings have the same types and the same facts, each can be started, and engines of the
one and of the other, with the same settings, answer every update and every deletion
alike. -/
theorem alike_of_reorders (hschema : Schema.ofDefinitions defs = .ok schema)
    (h : ds.Reorders ds') :
    ((∃ mapping, Mapping.compile schema ds = .ok mapping) ↔
      ∃ mapping', Mapping.compile schema ds' = .ok mapping') ∧
    ∀ mapping mapping', Mapping.compile schema ds = .ok mapping →
      Mapping.compile schema ds' = .ok mapping' →
      mapping.Alike mapping' ∧ ∀ settings,
        (∃ e, Reached schema ds settings e) ∧ (∃ e', Reached schema ds' settings e') ∧
        ∀ e e', Reached schema ds settings e → Reached schema ds' settings e' →
          ∀ (store : ObjectStore schema) (o : ObjectId),
            (∀ dirty found, ((afterChange store o dirty).run.run e).1 = .ok found ↔
              ((afterChange store o dirty).run.run e').1 = .ok found) ∧
            ∀ found, ((afterDelete store o).run.run e).1 = .ok found ↔
              ((afterDelete store o).run.run e').1 = .ok found := by
  have hm := Schema.coherent_of_accepted hschema
  obtain ⟨hwithin, hwithin'⟩ := h.within
  refine ⟨⟨?_, ?_⟩, fun mapping mapping' hcompile hcompile' => ?_⟩
  · rintro ⟨mapping, hcompile⟩
    obtain ⟨mapping', hcompile', -⟩ := Mapping.exists_alike hwithin hwithin' hcompile
    exact ⟨mapping', hcompile'⟩
  · rintro ⟨mapping', hcompile'⟩
    obtain ⟨mapping, hcompile, -⟩ := Mapping.exists_alike hwithin' hwithin hcompile'
    exact ⟨mapping, hcompile⟩
  · obtain ⟨_, hcompile'', halike⟩ := Mapping.exists_alike hwithin hwithin' hcompile
    cases hcompile'.symm.trans hcompile''
    have hclosed := Mapping.closed_of_compile hm hcompile
    have hclosed' := Mapping.closed_of_compile hm hcompile'
    refine ⟨halike, fun settings => ?_⟩
    obtain ⟨e, hstart, -⟩ := exists_start hcompile hclosed.bounded settings
    obtain ⟨e', hstart', -⟩ := exists_start hcompile' hclosed'.bounded settings
    refine ⟨⟨e, .start hstart⟩, ⟨e', .start hstart'⟩, fun e e' hreach hreach' store o => ?_⟩
    simp only [run_afterChange hcompile hreach, run_afterChange hcompile' hreach',
      run_afterDelete hcompile hreach, run_afterDelete hcompile' hreach']
    exact ⟨fun dirty found => ⟨changeAnswer_of_alike hm hclosed hclosed' halike,
        changeAnswer_of_alike hm hclosed' hclosed halike.symm⟩,
      fun found => ⟨deleteAnswer_of_alike hm hclosed hclosed' halike,
        deleteAnswer_of_alike hm hclosed' hclosed halike.symm⟩⟩

/-- The declarations about teams, from the last to the first. -/
theorem alike_of_reorders_teams :
    Sample.teams.mapping.Reorders Sample.teams.mapping.reversed ∧
    Sample.teams.mapping.reversed ≠ Sample.teams.mapping ∧
    ∃ mapping', Mapping.compile Sample.teamsSchema Sample.teams.mapping.reversed = .ok mapping' ∧
      Sample.teamsMapping.Alike mapping' ∧
      ∃ e', Reached Sample.teamsSchema Sample.teams.mapping.reversed {} e' ∧
        ((afterChange Sample.staffed 3 (some Sample.newNick)).run.run e').1 =
          .ok Sample.nicknamedFound ∧ Sample.nicknamedFound.size = 3 := by
  have hreorders := Sample.teams.mapping.reorders_reversed
  obtain ⟨haccept, hanswer⟩ := alike_of_reorders (Except.eq_ok_value _) hreorders
  obtain ⟨mapping', hcompile'⟩ := haccept.mp ⟨Sample.teamsMapping, Except.eq_ok_value _⟩
  obtain ⟨halike, hsettings⟩ :=
    hanswer Sample.teamsMapping mapping' (Except.eq_ok_value _) hcompile'
  obtain ⟨-, ⟨e', hreach'⟩, hrequests⟩ := hsettings {}
  obtain ⟨hchange, -⟩ :=
    hrequests Sample.teamsEngine e' (.start (Except.eq_ok_value _)) hreach' Sample.staffed 3
  refine ⟨hreorders, by decide +kernel, mapping', hcompile', halike, e', hreach', ?_, ?_⟩
  · exact (hchange _ _).mp (Except.eq_ok_value _)
  · decide +kernel

end Engine

end IndexSync
