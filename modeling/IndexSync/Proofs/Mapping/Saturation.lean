import IndexSync.Proofs.Mapping.Closure

/-!
# Document parts as a least fixed point

The types with a document part are those from which embedding edges lead, one after
another, to an indexed type, in whatever order they are collected.

- `Schema.Climbs` — a sequence of edges leads from a type to an indexed one.
- `mem_saturate_iff` — saturation collects the concrete types that climb.
- `Adds` — one more type is added that is embedded where a part is.
- `acc_adds`, `mem_iff_of_adds` — additions come to an end, and then to the same types.
-/

namespace IndexSync

open Relation (ReflTransGen)

variable {schema : Schema} {embeddings es : List Embedding}
  {indexed documents more : List TypeName} {c : TypeName}

/-- Edges lead from `c` to an indexed type: each is taken by a concrete type that fits its
target, the first one by `c`, and leads on to the concrete types that fit its landing. -/
def Schema.Climbs (m : Schema) (indexed : List TypeName) : TypeName → List Embedding → Prop
  | c, [] => c ∈ indexed
  | c, e :: es => m.fits c e.target = true ∧
      ∃ d, m.isConcrete d = true ∧ m.fits d e.landing = true ∧ m.Climbs indexed d es

theorem exists_climbs_iff {m : Schema} : (∃ es ⊆ embeddings, m.Climbs indexed c es) ↔
    c ∈ indexed ∨ ∃ es ≠ [], es ⊆ embeddings ∧ m.Climbs indexed c es := by
  constructor
  · rintro ⟨es, hsub, hclimb⟩
    by_cases hempty : es = []
    · rw [hempty] at hclimb
      exact .inl hclimb
    · exact .inr ⟨es, hempty, hsub, hclimb⟩
  · rintro (hc | ⟨es, -, hsub, hclimb⟩)
    · exact ⟨[], List.nil_subset _, hc⟩
    · exact ⟨es, hsub, hclimb⟩

/-- From `documents` another type is collected, which is embedded where a part is. -/
def Adds (m : Schema) (embeddings : List Embedding) (documents more : List TypeName) : Prop :=
  ∃ c, c ∉ documents ∧ c ∈ saturateStep m embeddings documents ∧ more = documents ++ [c]

section

variable (hm : schema.Coherent)
include hm

theorem mem_saturateStep_iff_fits : c ∈ saturateStep schema embeddings documents ↔
    schema.isConcrete c = true ∧ (c ∈ documents ∨
      ∃ e ∈ embeddings, schema.fits c e.target = true ∧
        ∃ d ∈ documents, schema.isConcrete d = true ∧ schema.fits d e.landing = true) := by
  rw [mem_saturateStep, Schema.mem_concretes_iff]
  refine and_congr_right fun hc => or_congr_right (exists_congr fun e => and_congr_right fun _ => ?_)
  simp only [leadsToPart, List.any_eq_true, decide_eq_true_eq, hm.mem_concretesUnder_iff]
  constructor
  · rintro ⟨⟨d, ⟨hd, hland⟩, hmem⟩, -, hfits⟩
    exact ⟨hfits, d, hmem, hd, hland⟩
  · rintro ⟨hfits, d, hmem, hd, hland⟩
    exact ⟨⟨d, ⟨hd, hland⟩, hmem⟩, hc, hfits⟩

/-- What a round collects climbs if all that was collected before does. -/
theorem climbs_of_mem_saturateStep
    (h : ∀ d ∈ documents, ∃ es ⊆ embeddings, schema.Climbs indexed d es)
    (hc : c ∈ saturateStep schema embeddings documents) :
    ∃ es ⊆ embeddings, schema.Climbs indexed c es := by
  obtain ⟨-, hc | ⟨e, he, hfits, d, hd, hconcrete, hland⟩⟩ :=
    (mem_saturateStep_iff_fits hm).mp hc
  · exact h c hc
  · obtain ⟨es, hsub, hclimb⟩ := h d hd
    exact ⟨e :: es, List.cons_subset.mpr ⟨he, hsub⟩, hfits, d, hconcrete, hland, hclimb⟩

theorem climbs_of_mem_saturate (hc : c ∈ saturate schema embeddings indexed) :
    ∃ es ⊆ embeddings, schema.Climbs indexed c es := by
  suffices go : ∀ (rounds : Nat) (documents : List TypeName),
      (∀ d ∈ documents, ∃ es ⊆ embeddings, schema.Climbs indexed d es) →
      ∀ d ∈ saturate.go schema embeddings rounds documents,
        ∃ es ⊆ embeddings, schema.Climbs indexed d es from
    go _ indexed (fun d hd => ⟨[], List.nil_subset _, hd⟩) c hc
  intro rounds
  induction rounds with
  | zero => exact fun _ h => h
  | succ rounds ih =>
      intro documents h
      rw [saturate.go]
      split
      · exact h
      · exact ih _ fun d hd => climbs_of_mem_saturateStep hm h hd

/-- Where a round collects nothing new, every concrete type that climbs has been
collected. -/
theorem mem_of_climbs (hindexed : indexed ⊆ documents)
    (hfixed : ∀ c, c ∈ saturateStep schema embeddings documents → c ∈ documents)
    (hsub : es ⊆ embeddings) (hc : schema.isConcrete c = true)
    (hclimb : schema.Climbs indexed c es) : c ∈ documents := by
  induction es generalizing c with
  | nil => exact hindexed hclimb
  | cons e es ih =>
      obtain ⟨he, hsub⟩ := List.cons_subset.mp hsub
      obtain ⟨hfits, d, hd, hland, hclimb⟩ := hclimb
      have hmem : d ∈ documents := ih hsub hd hclimb
      apply hfixed
      exact (mem_saturateStep_iff_fits hm).mpr ⟨hc, .inr ⟨e, he, hfits, d, hmem, hd, hland⟩⟩

/-- Saturation collects the concrete types from which edges lead to an indexed type. -/
theorem mem_saturate_iff (hselect : schema.Selects indexed) :
    c ∈ saturate schema embeddings indexed ↔
      schema.isConcrete c = true ∧ ∃ es ⊆ embeddings, schema.Climbs indexed c es := by
  obtain ⟨hfixed, hkeeps, -⟩ :=
    @saturate_go_spec schema embeddings _ indexed hselect (Nat.le_add_left _ _)
  have hstep : saturateStep schema embeddings (saturate schema embeddings indexed) =
      saturate schema embeddings indexed := hfixed
  constructor
  · intro hc
    refine ⟨?_, climbs_of_mem_saturate hm hc⟩
    rw [← hstep] at hc
    exact ((mem_saturateStep_iff_fits hm).mp hc).1
  · rintro ⟨hc, es, hsub, hclimb⟩
    exact mem_of_climbs hm hkeeps (fun d hd => hstep ▸ hd) hsub hc hclimb

end

/-! ## One type at a time -/

/-- Additions keep the collected types concrete and distinct, and all that were there. -/
theorem Adds.keeps (h : Adds schema embeddings documents more) :
    (documents.Nodup → more.Nodup) ∧ (documents ⊆ schema.concretes → more ⊆ schema.concretes) ∧
      documents ⊆ more := by
  obtain ⟨c, hnew, hc, rfl⟩ := h
  refine ⟨?_, ?_, List.subset_append_left _ _⟩
  · intro hnodup
    rw [← List.concat_eq_append]
    exact hnodup.concat hnew
  · intro hsub
    exact List.append_subset.mpr ⟨hsub, by simpa using (mem_saturateStep.mp hc).1⟩

theorem Schema.Selects.subset (h : schema.Selects documents) : documents ⊆ schema.concretes := by
  rw [h]
  exact List.filter_subset_self _

theorem Schema.Selects.nodup {ds : List TypeDef} (hschema : Schema.ofDefinitions ds = .ok schema)
    (h : schema.Selects documents) : documents.Nodup := by
  rw [h]
  exact ((Schema.typeNames_nodup hschema).filter _).filter _

/-- No more types can be added than are missing. -/
theorem acc_adds (hnodup : documents.Nodup) (hsub : documents ⊆ schema.concretes) :
    Acc (fun more documents => Adds schema embeddings documents more) documents := by
  generalize hmissing : schema.concretes.length - documents.length = missing
  induction missing using Nat.strongRecOn generalizing documents with
  | ind missing ih =>
      refine Acc.intro _ fun more hadds => ?_
      obtain ⟨hnodup', hsub', -⟩ := hadds.keeps
      have hlonger : more.length = documents.length + 1 := by
        obtain ⟨c, -, -, rfl⟩ := hadds
        simp
      have hroom := (hnodup' hnodup).length_le_of_subset (hsub' hsub)
      exact ih _ (by omega) (hnodup' hnodup) (hsub' hsub) rfl

section

variable (hm : schema.Coherent) (hselect : schema.Selects indexed)
  (hadds : ReflTransGen (Adds schema embeddings) indexed documents)
include hm hselect hadds

/-- Whatever has been added climbs, and the indexed types stay. -/
theorem climbs_of_adds : (∀ d ∈ documents, ∃ es ⊆ embeddings, schema.Climbs indexed d es) ∧
    documents ⊆ schema.concretes ∧ indexed ⊆ documents := by
  induction hadds with
  | refl =>
      exact ⟨fun d hd => ⟨[], List.nil_subset _, hd⟩, hselect.subset, List.Subset.refl _⟩
  | tail _ hadd ih =>
      obtain ⟨hclimbs, hsub, hindexed⟩ := ih
      obtain ⟨-, hsub', hkeeps⟩ := hadd.keeps
      refine ⟨?_, hsub' hsub, List.Subset.trans hindexed hkeeps⟩
      obtain ⟨new, -, hnew, rfl⟩ := hadd
      intro d hd
      rcases List.mem_append.mp hd with hd | hd
      · exact hclimbs d hd
      · cases List.mem_singleton.mp hd
        exact climbs_of_mem_saturateStep hm hclimbs hnew

/-- If types have been added until no more could be, they are those that saturation
collects. -/
theorem mem_iff_of_adds (hdone : ∀ more, ¬ Adds schema embeddings documents more) :
    c ∈ documents ↔ c ∈ saturate schema embeddings indexed := by
  obtain ⟨hclimbs, hsub, hindexed⟩ := climbs_of_adds hm hselect hadds
  rw [mem_saturate_iff hm hselect]
  constructor
  · intro hc
    exact ⟨Schema.mem_concretes_iff.mp (hsub hc), hclimbs c hc⟩
  · rintro ⟨hc, es, hes, hclimb⟩
    refine mem_of_climbs hm hindexed ?_ hes hc hclimb
    intro d hd
    by_contra hnew
    exact hdone _ ⟨d, hnew, hd, rfl⟩

end

end IndexSync
