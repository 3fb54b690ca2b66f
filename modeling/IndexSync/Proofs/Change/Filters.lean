import IndexSync.Proofs.Change.Answered
import IndexSync.Proofs.Change.Total

/-!
# What filters change

Filters save steps and answer less; where every path counts as changed they change
nothing.

- `Engine.exists_relevantPaths` — the paths relevant to an object, one of which a change
  has to hit to make anything stale.
- `Engine.filtered_refines_unfiltered` — the answers of an engine with filters against those
  of one without.
-/

namespace IndexSync.Engine

variable {defs : List TypeDef} {schema : Schema} {ds : Declarations} {mapping : Mapping schema}
  {settings plain : Settings} {e e' : Engine schema} {store : ObjectStore schema} {o : ObjectId}
  {type : TypeName}

/-- A changeable type has relevant paths, the dirty paths of all triggers for it among
them. -/
theorem exists_relevantPaths (hclosed : mapping.Closed)
    (hcompile : Mapping.compile schema ds = .ok mapping) (hreach : Reached schema ds settings e)
    (ho : store.runtimeType o = .ok type) (hcheck : checkChangeable schema type = .ok ()) :
    ∃ paths, ((relevantPaths type).run.run e).1 = .ok paths ∧
      ∀ t ∈ mapping.triggers, store.IsA o t.changed → t.dirty ∈ paths := by
  obtain ⟨tree, l, hbuild, hbuilt⟩ :=
    ChangeTree.build_spec hclosed.bounded settings.filtering type
  refine ⟨tree.relevantPaths, ?_, ?_⟩
  · rw [run_relevantPaths hcompile hreach, treeOf_eq_ok.mpr ⟨hcheck, hbuild⟩]
    rfl
  · rintro t ht ⟨type', htype', hfits⟩
    cases htype'.symm.trans ho
    exact hbuilt.dirty_mem_relevantPaths ht hfits

/-- An engine with filters answers a change at any path and a deletion as one without does.
To a change at known paths it answers at least where the other does, and with part of what
the other finds; nothing if none of the relevant paths is hit. -/
theorem filtered_refines_unfiltered (hschema : Schema.ofDefinitions defs = .ok schema)
    (hcompile : Mapping.compile schema ds = .ok mapping) (hfiltering : settings.filtering = true)
    (hplain : plain.filtering = false) (hreach : Reached schema ds settings e)
    (hreach' : Reached schema ds plain e') (store : ObjectStore schema) (o : ObjectId) :
    (∀ found, ((afterChange store o none).run.run e).1 = .ok found ↔
      ((afterChange store o none).run.run e').1 = .ok found) ∧
    (∀ found, ((afterDelete store o).run.run e).1 = .ok found ↔
      ((afterDelete store o).run.run e').1 = .ok found) ∧
    (∀ dirty all, ((afterChange store o (some dirty)).run.run e').1 = .ok all →
      ∃ found, ((afterChange store o (some dirty)).run.run e).1 = .ok found ∧
        ∀ r ∈ found, r ∈ all) ∧
    ∀ type, store.runtimeType o = .ok type → schema.isEntity type = true →
      ∃ paths, ((relevantPaths type).run.run e).1 = .ok paths ∧
        ∀ dirty : DirtySet, (∀ path ∈ paths, dirty.hits path = false) →
          ((afterChange store o (some dirty)).run.run e).1 = .ok ∅ := by
  have hm := Schema.coherent_of_accepted hschema
  have hclosed := Mapping.closed_of_compile hm hcompile
  simp only [run_afterChange hcompile hreach, run_afterChange hcompile hreach',
    run_afterDelete hcompile hreach, run_afterDelete hcompile hreach']
  refine ⟨fun found => ?_, fun found => ?_, fun dirty all hall => ?_, fun type ho hentity => ?_⟩
  · simp only [changeAnswer_eq_ok_iff hm hclosed, ite_self]
  · simp only [deleteAnswer_eq_ok_iff hm hclosed]
  · -- without filters any path counts as changed
    obtain ⟨ho, hsmooth, hmem⟩ := changeAnswer_spec hm hclosed hall
    simp only [hplain, Bool.false_eq_true, if_false] at hsmooth hmem
    have hfewer : mapping.Smooth store o (some dirty) := hsmooth.of_hits fun _ _ _ _ => nofun
    obtain ⟨found, hfound⟩ := exists_changeAnswer hm hclosed settings (some dirty) ho
      (by rwa [if_pos hfiltering])
    refine ⟨found, hfound, fun r hr => ?_⟩
    have hmem' := (changeAnswer_spec hm hclosed hfound).2.2
    rw [if_pos hfiltering] at hmem'
    obtain ⟨y, hy, hdoc⟩ := (hmem' r).mp hr
    exact (hmem r).mpr ⟨y, hy.mono fun _ _ _ _ => nofun, hdoc⟩
  · have hcheck := checkChangeable_of_isEntity (store.isConcrete_of_runtimeType ho) hentity
    obtain ⟨paths, hpaths, hrelevant⟩ := exists_relevantPaths hclosed hcompile hreach ho hcheck
    refine ⟨paths, hpaths, fun dirty hmiss => ?_⟩
    have hunhit : ∀ t ∈ mapping.triggers, store.IsA o t.changed →
        ¬ ∀ d ∈ some dirty, d.hits t.dirty = true := by
      intro t ht hchanged hhit
      exact absurd ((hmiss _ (hrelevant t ht hchanged)).symm.trans (hhit dirty rfl)) nofun
    obtain ⟨hsmooth, hstale⟩ := Mapping.smooth_of_unhit hunhit
    rw [changeAnswer_eq_ok_iff hm hclosed, if_pos hfiltering]
    refine ⟨⟨type, ho, hcheck⟩, hsmooth, fun r => ?_⟩
    simp [hstale]

theorem filtered_refines_unfiltered_couple :
    ((afterChange Sample.couple 1 none).run.run Sample.coupleUnfiltered).1 =
      .ok Sample.coupleFound ∧
    (∃ found, ((afterDelete Sample.couple 1).run.run Sample.coupleEngine).1 = .ok found ∧
      ((afterDelete Sample.couple 1).run.run Sample.coupleUnfiltered).1 = .ok found) ∧
    (∃ found, ((afterChange Sample.couple 1 (some Sample.newName)).run.run
      Sample.coupleEngine).1 = .ok found ∧ ∀ r ∈ found, r ∈ Sample.unfilteredFound) ∧
    ∃ paths, ((relevantPaths "Person").run.run Sample.coupleEngine).1 = .ok paths ∧
      ∀ dirty : DirtySet, (∀ path ∈ paths, dirty.hits path = false) →
        ((afterChange Sample.couple 1 (some dirty)).run.run Sample.coupleEngine).1 = .ok ∅ := by
  have hstart : Reached Sample.coupleSchema Sample.spouses.mapping {} Sample.coupleEngine :=
    .start (Except.eq_ok_value _)
  have hplain : Reached Sample.coupleSchema Sample.spouses.mapping { filtering := false }
      Sample.coupleUnfiltered := .start (Except.eq_ok_value _)
  obtain ⟨hchange, hdelete, hknown, hmiss⟩ := filtered_refines_unfiltered (Except.eq_ok_value _)
    Sample.compile_couple rfl rfl hstart hplain Sample.couple 1
  have hdeleted : ((afterDelete Sample.couple 1).run.run Sample.coupleEngine).1.isOk = true := by
    decide +kernel
  exact ⟨(hchange _).mp (Except.eq_ok_value _),
    ⟨_, Except.eq_ok_value hdeleted, (hdelete _).mp (Except.eq_ok_value hdeleted)⟩,
    hknown _ _ (Except.eq_ok_value _),
    hmiss "Person" (Except.eq_ok_of_toOption reads_couple.2.2.1) isEntity_person⟩

end IndexSync.Engine
