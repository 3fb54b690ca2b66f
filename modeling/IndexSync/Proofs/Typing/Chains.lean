import IndexSync.Proofs.Mapping.Compiled
import IndexSync.Proofs.Typing.Moves

/-!
# Chains of declared types

Every chain of a compiled mapping can be followed from the objects that it is meant for.

- `ChainTyped` — the moves of a chain take objects of a type.
- `chainTyped_of_triggersAlong` — the chains of a path's triggers, and the chain back
  from its end; by induction on the segments, as each backlink lands where the chain
  collected before it starts.
- `Mapping.Typed`, `Mapping.typed_of_compile` — the same for all facts of a mapping.
-/

namespace IndexSync

variable {schema m : Schema} {ds : Declarations} {mapping : Mapping schema}
  {table : InverseTable} {whole : TypeName × String}

/-! ## One chain -/

/-- The moves of a chain take objects of a type. -/
def ChainTyped (m : Schema) (type : TypeName) (chain : List Backlink) : Prop :=
  ∃ result, movesTake m (chainMoves chain) (.object type) result

theorem chainTyped_nil {type : TypeName} : ChainTyped m type [] :=
  ⟨_, rfl⟩

theorem ChainTyped.of_fits (hm : m.Coherent) {sub type : TypeName} {chain : List Backlink}
    (h : ChainTyped m type chain) (hfits : m.fits sub type = true) : ChainTyped m sub chain := by
  by_cases hempty : chain = []
  · subst hempty
    exact chainTyped_nil
  · obtain ⟨result, h⟩ := h
    obtain ⟨before, static, hland⟩ := exists_land_of_chain hempty
    refine ⟨result, movesTake_of_fits hm ?_ h hfits⟩
    rw [hland]
    simp

theorem ChainTyped.cons {type : TypeName} {link : Backlink} {chain : List Backlink}
    (h : movesTake m link.moves (.object type) (.object link.land))
    (hchain : ChainTyped m link.land chain) : ChainTyped m type (link :: chain) := by
  obtain ⟨result, hchain⟩ := hchain
  refine ⟨result, ?_⟩
  rw [chainMoves, List.flatMap_cons, movesTake_append]
  exact ⟨_, h, hchain⟩

/-! ## Chains of one path -/

theorem chainTyped_of_triggersAlong (hm : m.Coherent) {owner : TypeName}
    {finish : Option TypeName} {segs : List Segment} (hjoined : Joined owner segs finish)
    {chain back : List Backlink} {triggers : List Trigger} (hchain : ChainTyped m owner chain)
    (htrace : triggersAlong m table whole chain segs = .ok (triggers, back)) :
    (∀ t ∈ triggers, ChainTyped m t.changed t.chain) ∧ ∀ type ∈ finish, ChainTyped m type back := by
  induction hjoined generalizing chain triggers with
  | nil =>
      cases htrace
      refine ⟨nofun, ?_⟩
      rintro _ ⟨⟩
      exact hchain
  | @last owner seg howner htarget =>
      subst howner
      rcases triggersAlong_cons_eq_ok htrace with ⟨-, rfl, -⟩ | ⟨_, _, _, htarget', -⟩
      · refine ⟨fun t ht => ?_, nofun⟩
        cases List.mem_singleton.mp ht
        exact hchain
      · cases htarget.symm.trans htarget'
  | @cross owner target seg rest finish howner htarget _ ih =>
      subst howner
      rcases triggersAlong_cons_eq_ok htrace with
        ⟨htarget', -⟩ | ⟨_, link, triggers', htarget', hlink, hrest, rfl⟩
      · cases htarget.symm.trans htarget'
      · cases htarget.symm.trans htarget'
        obtain ⟨side, -, hside⟩ := backlinkOver_eq_ok.mp hlink
        obtain ⟨htarget, hstart⟩ := takes_of_linkAlong hm hside
        -- the link lands on instances of the segment's owner, where `chain` starts
        have hland : ChainTyped m link.land chain :=
          hchain.of_fits hm (fits_of_linkAlong hm hside).1
        obtain ⟨htriggers, hback⟩ := ih (.cons htarget hland) hrest
        refine ⟨fun t ht => ?_, hback⟩
        rcases List.mem_cons.mp ht with rfl | ht
        · exact hchain
        rcases List.mem_cons.mp ht with rfl | ht
        · exact .cons hstart hland
        · exact htriggers t ht

theorem takes_of_dependsOn (hm : m.Coherent) {root : TypeName} {other : Dependency}
    {link : Backlink} (h : DependsOn m ds root other link) :
    movesTake m link.moves (.object other.type) (.object link.land) := by
  obtain ⟨_, _, -, -, h⟩ := h
  obtain ⟨path, -, h⟩ := Except.bind_eq_ok.mp h
  obtain ⟨ms, -, hmoves, htake⟩ := exists_takes_of_backlinkTo hm (Except.mapError_eq_ok.mp h)
  rw [hmoves]
  exact htake

/-! ## Chains of a mapping -/

theorem TriggerOf.chainTyped (hm : m.Coherent) {root : TypeName} {t : Trigger}
    (h : TriggerOf m ds table root t) : ChainTyped m t.changed t.chain := by
  cases h with
  | @path text steps crossEnd _ _ _ _ htrace ht =>
      obtain ⟨finish, hjoined⟩ := @exists_joined_cut m crossEnd root steps
      exact (chainTyped_of_triggersAlong hm hjoined chainTyped_nil htrace).1 t ht
  | inverse hdepends => exact .cons (takes_of_dependsOn hm hdepends) chainTyped_nil
  | @used other link path steps _ _ _ hdepends _ _ htrace ht =>
      obtain ⟨finish, hjoined⟩ := @exists_joined_cut m false other.type steps
      have hlink : ChainTyped m other.type [link] :=
        .cons (takes_of_dependsOn hm hdepends) chainTyped_nil
      exact (chainTyped_of_triggersAlong hm hjoined hlink htrace).1 t ht

theorem EmbeddingOf.chainTyped (hm : schema.Coherent) {root : TypeName} {e : Embedding}
    (h : EmbeddingOf schema ds table root e) : ChainTyped schema e.target e.chain := by
  obtain ⟨text, steps, triggers, back, hdeclares, htrace, rfl⟩ := h
  have hjoined := joined_cut_of_declares hdeclares
  exact (chainTyped_of_triggersAlong hm hjoined chainTyped_nil htrace).2 _ rfl

namespace Mapping

/-- Every chain can be followed from the objects that it is meant for. -/
structure Typed (mapping : Mapping schema) : Prop where
  trigger : ∀ t ∈ mapping.triggers, ChainTyped schema t.changed t.chain
  embedding : ∀ e ∈ mapping.embeddings, ChainTyped schema e.target e.chain

theorem typed_of_compile (hm : schema.Coherent) (hcompile : compile schema ds = .ok mapping) :
    mapping.Typed := by
  obtain ⟨F, hfacts, rfl⟩ := eq_of_compile hcompile
  obtain ⟨table, htable, -⟩ := facts_eq_ok hfacts
  refine ⟨fun t ht => ?_, fun e he => ?_⟩
  · have hmem : t ∈ F.triggers := mem_facts_of_ofFacts.1 t ht
    obtain ⟨root, horigin⟩ := triggerOf_of_mem hfacts htable hmem
    exact horigin.chainTyped hm
  · have hmem : e ∈ F.embeddings := mem_facts_of_ofFacts.2 e he
    obtain ⟨root, horigin⟩ := embeddingOf_of_mem hfacts htable hmem
    exact horigin.chainTyped hm

end Mapping

end IndexSync
