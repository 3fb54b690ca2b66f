import IndexSync.Proofs.Schema.Inheritance
import IndexSync.Proofs.Mapping.Facts

/-!
# Types with a document part

The types whose document part matters are closed under embedding.

- `saturate_go_spec` — saturation reaches a fixed point within its rounds, since every
  round but the last adds a concrete type.
- `Mapping.Closed`, `Mapping.closed_of_compile` — what follows for a compiled
  mapping.
-/

namespace IndexSync

variable {schema : Schema} {embeddings : List Embedding}

/-- Concrete types in declaration order, each as often as it is declared. -/
def Schema.Selects (m : Schema) (types : List TypeName) : Prop :=
  types = m.concretes.filter (· ∈ types)

theorem selects_filter (p : TypeName → Bool) : schema.Selects (schema.concretes.filter p) := by
  unfold Schema.Selects
  refine List.filter_congr fun c hc => ?_
  simp [List.mem_filter, hc]

/-! ## Rounds -/

theorem mem_saturateStep {documents : List TypeName} {c : TypeName} :
    c ∈ saturateStep schema embeddings documents ↔
      c ∈ schema.concretes ∧ (c ∈ documents ∨
        ∃ e ∈ embeddings, leadsToPart schema documents e.landing = true ∧
          c ∈ schema.concretesUnder e.target) := by
  simp only [saturateStep, List.mem_filter, Bool.or_eq_true, decide_eq_true_eq, List.mem_flatMap]
  refine and_congr_right fun _ => or_congr_right ?_
  constructor
  · rintro ⟨e, ⟨he, hlead⟩, hc⟩
    exact ⟨e, he, hlead, hc⟩
  · rintro ⟨e, he, hlead, hc⟩
    exact ⟨e, ⟨he, hlead⟩, hc⟩

theorem sublist_saturateStep {documents : List TypeName} (h : schema.Selects documents) :
    documents.Sublist (saturateStep schema embeddings documents) := by
  conv_lhs => rw [h]
  exact List.monotone_filter_right _ fun c hc => by simp_all

theorem Schema.Selects.length_le {documents : List TypeName} (h : schema.Selects documents) :
    documents.length ≤ schema.concretes.length := by
  rw [h]
  exact List.length_filter_le _ _

/-- A round that changes anything adds a type. -/
theorem length_lt_saturateStep {documents : List TypeName} (h : schema.Selects documents)
    (hmore : saturateStep schema embeddings documents ≠ documents) :
    documents.length < (saturateStep schema embeddings documents).length := by
  by_contra hle
  have hfixed := (sublist_saturateStep h).eq_of_length_le (Nat.le_of_not_lt hle)
  exact hmore hfixed.symm

/-- No round adds a type where there is no room for another one. -/
theorem saturateStep_eq_of_length_le {documents : List TypeName} (h : schema.Selects documents)
    (hfull : schema.concretes.length ≤ documents.length) :
    saturateStep schema embeddings documents = documents := by
  by_contra hmore
  have hlonger := length_lt_saturateStep h hmore
  have hstep : (saturateStep schema embeddings documents).length ≤ schema.concretes.length :=
    List.length_filter_le _ _
  omega

/-- Rounds lead to a fixed point above the start, as every round but the last adds
a type. -/
theorem saturate_go_spec {rounds : Nat} {documents : List TypeName}
    (h : schema.Selects documents) (hrounds : schema.concretes.length ≤ documents.length + rounds) :
    saturateStep schema embeddings (saturate.go schema embeddings rounds documents) =
        saturate.go schema embeddings rounds documents ∧
      documents ⊆ saturate.go schema embeddings rounds documents ∧
      (saturate.go schema embeddings rounds documents).length ≤ schema.concretes.length := by
  induction rounds generalizing documents with
  | zero =>
      rw [saturate.go]
      exact ⟨saturateStep_eq_of_length_le h hrounds, List.Subset.refl _, h.length_le⟩
  | succ rounds ih =>
      rw [saturate.go]
      split
      · rename_i hfixed
        exact ⟨hfixed, List.Subset.refl _, h.length_le⟩
      · rename_i hmore
        have hlonger := length_lt_saturateStep h hmore
        have hselect : schema.Selects (saturateStep schema embeddings documents) :=
          selects_filter _
        obtain ⟨hfixed, hkeeps, hle⟩ := ih hselect (by omega)
        exact ⟨hfixed, List.Subset.trans (sublist_saturateStep h).subset hkeeps, hle⟩

/-- More rounds make no difference. -/
theorem saturate_go_of_le {rounds rounds' : Nat} {documents : List TypeName}
    (h : schema.Selects documents) (hrounds : schema.concretes.length ≤ documents.length + rounds)
    (hle : rounds ≤ rounds') :
    saturate.go schema embeddings rounds' documents =
      saturate.go schema embeddings rounds documents := by
  induction rounds generalizing rounds' documents with
  | zero =>
      have hfixed : saturateStep schema embeddings documents = documents :=
        saturateStep_eq_of_length_le h hrounds
      cases rounds' with
      | zero => rfl
      | succ rounds' =>
          rw [saturate.go, saturate.go]
          exact if_pos hfixed
  | succ rounds ih =>
      obtain ⟨rounds', rfl⟩ := Nat.exists_eq_add_of_le' hle
      rw [← Nat.add_assoc, saturate.go, saturate.go]
      split
      · rfl
      · rename_i hmore
        have hlonger := length_lt_saturateStep h hmore
        have hselect : schema.Selects (saturateStep schema embeddings documents) :=
          selects_filter _
        exact ih hselect (by omega) (by omega)

/-! ## Compiled mappings -/

namespace Mapping

/-- Every indexed type has a part, edges land where their chains end, and a type that may
be embedded along an edge has a part if some type has one where the edge lands. -/
structure Closed (mapping : Mapping schema) : Prop where
  indexed : ∀ {c : TypeName}, mapping.isIndexed c = true → mapping.hasPart c = true
  landing : ∀ {e : Embedding}, e ∈ mapping.embeddings → ∃ root, e.landing = chainEnd e.chain root
  embedded : ∀ {e : Embedding} {c : TypeName}, e ∈ mapping.embeddings →
    leadsToPart schema mapping.documents e.landing = true → schema.isConcrete c = true →
    schema.fits c e.target = true → mapping.hasPart c = true
  bounded : mapping.documents.length ≤ schema.concretes.length

variable {ds : Declarations} {mapping : Mapping schema} {F : Facts}

/-- The types with a document part, as the facts of the declarations give them. -/
def documentsOf (schema : Schema) (ds : Declarations) (F : Facts) : List TypeName :=
  saturate schema F.embeddings (indexedConcretes schema ds)

/-- One more round adds no type. -/
theorem documentsOf_spec : saturateStep schema F.embeddings (documentsOf schema ds F) =
      documentsOf schema ds F ∧
    indexedConcretes schema ds ⊆ documentsOf schema ds F ∧
    (documentsOf schema ds F).length ≤ schema.concretes.length :=
  saturate_go_spec (selects_filter _) (Nat.le_add_left _ _)

/-- A compiled mapping is made of the facts of its declarations. -/
theorem eq_of_compile (h : compile schema ds = .ok mapping) :
    ∃ F, facts schema ds = .ok F ∧ mapping = ofFacts schema (indexedConcretes schema ds) F := by
  obtain ⟨F, hF, h⟩ := Except.bind_eq_ok.mp h
  exact ⟨F, hF, (Except.pure_eq_ok.mp h).symm⟩

/-- A mapping of facts is closed, whichever of the edges it keeps. -/
theorem closed_of_facts (hm : schema.Coherent) (hfacts : facts schema ds = .ok F)
    (hindexed : mapping.indexed = indexedConcretes schema ds)
    (hdocuments : mapping.documents = documentsOf schema ds F)
    (hembeddings : mapping.embeddings ⊆ F.embeddings) : mapping.Closed := by
  obtain ⟨table, htable, -⟩ := facts_eq_ok hfacts
  obtain ⟨hfixed, hkeeps, hle⟩ := @documentsOf_spec schema ds F
  refine ⟨?_, ?_, ?_, hdocuments ▸ hle⟩
  · intro c hc
    have hmem : c ∈ mapping.indexed := of_decide_eq_true hc
    rw [hindexed] at hmem
    apply decide_eq_true
    rw [hdocuments]
    exact hkeeps hmem
  · intro e he
    exact exists_landing hfacts htable (hembeddings he)
  · intro e c he hlead hc hfits
    have hconcrete : c ∈ schema.concretes := Schema.mem_concretes_iff.mpr hc
    have hunder : c ∈ schema.concretesUnder e.target :=
      hm.mem_concretesUnder_iff.mpr ⟨hc, hfits⟩
    apply decide_eq_true
    rw [hdocuments] at hlead ⊢
    -- one more round would add the type, so it is there already
    rw [← hfixed, mem_saturateStep]
    exact ⟨hconcrete, .inr ⟨e, hembeddings he, hlead, hunder⟩⟩

theorem closed_of_compile (hm : schema.Coherent) (h : compile schema ds = .ok mapping) :
    mapping.Closed := by
  obtain ⟨F, hfacts, rfl⟩ := eq_of_compile h
  exact closed_of_facts hm hfacts rfl rfl (List.filter_subset_self _)

/-- What a mapping keeps are facts of the declarations. -/
theorem mem_facts_of_ofFacts {indexed : List TypeName} {F : Facts} :
    (∀ t ∈ (ofFacts schema indexed F).triggers, t ∈ F.triggers) ∧
      ∀ e ∈ (ofFacts schema indexed F).embeddings, e ∈ F.embeddings := by
  constructor
  · intro t ht
    obtain ⟨hmem, -⟩ := List.mem_filter.mp ht
    exact List.mem_eraseDups.mp hmem
  · intro e he
    obtain ⟨hmem, -⟩ := List.mem_filter.mp he
    exact hmem

end Mapping

end IndexSync
