import IndexSync.Proofs.Answers
import IndexSync.Proofs.Tree.Update
import IndexSync.Sample.Couple

/-!
# What an update answers

- `Engine.walk_of_afterChange` — an answer to an update is what the walk of a built
  tree has found.
- `Engine.mem_afterChange_iff` — the answer holds the references of the stale objects
  with a document, no more and no less.
-/

namespace IndexSync.Engine

variable {defs : List TypeDef} {schema : Schema} {ds : Declarations} {mapping : Mapping schema}
  {settings : Settings} {e : Engine schema} {store : ObjectStore schema} {o : ObjectId}
  {dirty : Option DirtySet} {found : EntitySet}

/-- An answer to an update is what the walk of a built tree has found. -/
theorem walk_of_afterChange (hm : schema.Coherent)
    (hcompile : Mapping.compile schema ds = .ok mapping)
    (hreach : Reached schema ds settings e)
    (hrun : ((afterChange store o dirty).run.run e).1 = .ok found) :
    ∃ type tree l s, store.runtimeType o = .ok type ∧
      ChangeTree.Built mapping settings.filtering type tree l ∧
      ({ arena := tree.arena, store, dirty := dirty.map tree.table.hitBy } : Walk schema).run
        tree.root.toList o = (.finished, s) ∧ found = s.findings.entities := by
  rw [run_afterChange hcompile hreach] at hrun
  obtain ⟨type, tree, s, ho, -, hbuild, hwalk, hfound⟩ := answerTo_eq_ok.mp hrun
  have hclosed := Mapping.closed_of_compile hm hcompile
  obtain ⟨l, hbuilt⟩ := ChangeTree.built_of_build hclosed.bounded hbuild
  exact ⟨type, tree, l, s, ho, hbuilt, hwalk, hfound.symm⟩

/-- With filters, an update answers with the references of the stale objects that have
a document, no more and no less, and each of these has a reference. -/
theorem mem_afterChange_iff (hschema : Schema.ofDefinitions defs = .ok schema)
    (hcompile : Mapping.compile schema ds = .ok mapping) (hfiltering : settings.filtering = true)
    (hreach : Reached schema ds settings e)
    (hrun : ((afterChange store o dirty).run.run e).1 = .ok found) :
    (∀ r, r ∈ found ↔ ∃ x, Stale mapping store o dirty x ∧ mapping.HasDocument store x ∧
      store.reference x = .ok r) ∧
    ∀ x, Stale mapping store o dirty x → mapping.HasDocument store x →
      ∃ r, store.reference x = .ok r := by
  have hm := Schema.coherent_of_accepted hschema
  have hclosed := Mapping.closed_of_compile hm hcompile
  obtain ⟨type, tree, l, s, ho, hbuilt, hwalk, rfl⟩ :=
    walk_of_afterChange hm hcompile hreach hrun
  rw [hfiltering] at hbuilt
  exact ChangeTree.mem_entities_iff hbuilt rfl rfl hm hclosed ho hwalk

theorem mem_afterChange_iff_couple :
    (∀ r, r ∈ Sample.coupleFound ↔ ∃ x, Stale Sample.coupleMapping Sample.couple 1 none x ∧
      Sample.coupleMapping.HasDocument Sample.couple x ∧ Sample.couple.reference x = .ok r) ∧
    ∀ x, Stale Sample.coupleMapping Sample.couple 1 none x →
      Sample.coupleMapping.HasDocument Sample.couple x →
      ∃ r, Sample.couple.reference x = .ok r :=
  mem_afterChange_iff (Except.eq_ok_value _) (Except.eq_ok_value _) rfl
    (.start (Except.eq_ok_value _)) (Except.eq_ok_value _)

end IndexSync.Engine
