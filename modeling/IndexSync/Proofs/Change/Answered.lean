import IndexSync.Proofs.Answers
import IndexSync.Proofs.Tree.Delete

/-!
# When requests are answered

A request for an object is answered if the object is changeable and nothing goes wrong on
the way, and then with exactly the documents concerned.

- `Engine.changeAnswer_eq_ok_iff`, `Engine.deleteAnswer_eq_ok_iff` — when an update or a
  deletion is answered, and with what.
-/

namespace IndexSync.Engine

open Relation (ReflTransGen)

variable {schema : Schema} {mapping : Mapping schema} {settings : Settings}
  {store : ObjectStore schema} {o : ObjectId} {dirty : Option DirtySet} {found : EntitySet}

/-- A live object of a type that has a tree. -/
def Changeable (store : ObjectStore schema) (o : ObjectId) : Prop :=
  ∃ type, store.runtimeType o = .ok type ∧ checkChangeable schema type = .ok ()

section

variable (hm : schema.Coherent) (hclosed : mapping.Closed)
include hm hclosed

/-- A smooth update of a changeable object is answered. -/
theorem exists_changeAnswer (settings : Settings) (dirty : Option DirtySet) (h : Changeable store o)
    (hsmooth : mapping.Smooth store o (if settings.filtering then dirty else none)) :
    ∃ found, changeAnswer mapping settings store o dirty = .ok found := by
  obtain ⟨type, ho, hcheck⟩ := h
  obtain ⟨tree, l, hbuild, hbuilt⟩ :=
    ChangeTree.build_spec hclosed.bounded settings.filtering type
  let w : Walk schema := { arena := tree.arena, store, dirty := dirty.map tree.table.hitBy }
  obtain ⟨s, hrun⟩ := ChangeTree.exists_finished_of_smooth (w := w) hbuilt rfl rfl hm ho hsmooth
  exact ⟨_, answerTo_eq_ok.mpr ⟨type, tree, s, ho, hcheck, hbuild, hrun, rfl⟩⟩

/-- An update is answered only if the object is changeable and the update smooth, and then
with the stale documents; without filters any path counts as changed. -/
theorem changeAnswer_spec (h : changeAnswer mapping settings store o dirty = .ok found) :
    Changeable store o ∧ mapping.Smooth store o (if settings.filtering then dirty else none) ∧
      ∀ r, r ∈ found ↔
        ∃ y, Stale mapping store o (if settings.filtering then dirty else none) y ∧
          mapping.HasDocument store y ∧ store.reference y = .ok r := by
  obtain ⟨type, tree, s, ho, hcheck, hbuild, hrun, rfl⟩ := answerTo_eq_ok.mp h
  obtain ⟨l, hbuilt⟩ := ChangeTree.built_of_build hclosed.bounded hbuild
  exact ⟨⟨type, ho, hcheck⟩,
    (ChangeTree.exists_finished_iff hbuilt rfl rfl hm hclosed ho).mp ⟨s, hrun⟩,
    (ChangeTree.mem_entities_iff hbuilt rfl rfl hm hclosed ho hrun).1⟩

/-- A deletion counts as a change at any path, with filters or without. -/
theorem exists_deleteAnswer (settings : Settings) (h : Changeable store o)
    (hsmooth : mapping.Smooth store o none)
    (hparts : ∀ y, ReflTransGen (mapping.Embeds store) o y → mapping.SmoothPart store y) :
    ∃ found, deleteAnswer mapping settings store o = .ok found := by
  obtain ⟨type, ho, hcheck⟩ := h
  obtain ⟨tree, l, hbuild, hbuilt⟩ :=
    ChangeTree.build_spec hclosed.bounded settings.filtering type
  let w : Walk schema := { arena := tree.arena, store, dirty := none }
  have hdirty : w.dirty = (none : Option DirtySet).map tree.table.hitBy := rfl
  rw [← ite_self (c := settings.filtering = true) none] at hsmooth
  obtain ⟨s, hrun⟩ :=
    ChangeTree.exists_finished_of_smoothParts hbuilt rfl hdirty hm ho hsmooth hparts
  exact ⟨_, answerTo_eq_ok.mpr ⟨type, tree, s, ho, hcheck, hbuild, hrun, rfl⟩⟩

/-- A deletion is answered only if the object is changeable, a change of it at any path
smooth, and the parts of all that embed it smooth, and then with the stale documents and
those that embed the object. -/
theorem deleteAnswer_spec (h : deleteAnswer mapping settings store o = .ok found) :
    Changeable store o ∧ mapping.Smooth store o none ∧
      (∀ y, ReflTransGen (mapping.Embeds store) o y → mapping.SmoothPart store y) ∧
      ∀ r, r ∈ found ↔
        ∃ y, (Stale mapping store o none y ∨ ReflTransGen (mapping.Embeds store) o y) ∧
          mapping.HasDocument store y ∧ store.reference y = .ok r := by
  obtain ⟨type, tree, s, ho, hcheck, hbuild, hrun, rfl⟩ := answerTo_eq_ok.mp h
  obtain ⟨l, hbuilt⟩ := ChangeTree.built_of_build hclosed.bounded hbuild
  let w : Walk schema := { arena := tree.arena, store, dirty := none }
  have hdirty : w.dirty = (none : Option DirtySet).map tree.table.hitBy := rfl
  have hsmooth := (ChangeTree.exists_finished_iff_of_delete hbuilt rfl hdirty hm hclosed ho).mp
    ⟨s, hrun⟩
  have hmem := ChangeTree.mem_entities_iff_of_delete hbuilt rfl hdirty hm hclosed ho hrun
  rw [ite_self] at hsmooth hmem
  exact ⟨⟨type, ho, hcheck⟩, hsmooth.1, hsmooth.2, hmem⟩

/-- When an update is answered, and with what. -/
theorem changeAnswer_eq_ok_iff :
    changeAnswer mapping settings store o dirty = .ok found ↔
      Changeable store o ∧ mapping.Smooth store o (if settings.filtering then dirty else none) ∧
      ∀ r, r ∈ found ↔
        ∃ y, Stale mapping store o (if settings.filtering then dirty else none) y ∧
          mapping.HasDocument store y ∧ store.reference y = .ok r := by
  refine ⟨changeAnswer_spec hm hclosed, fun ⟨ho, hsmooth, hfound⟩ => ?_⟩
  obtain ⟨found', h⟩ := exists_changeAnswer hm hclosed settings dirty ho hsmooth
  have hmem := (changeAnswer_spec hm hclosed h).2.2
  obtain rfl : found' = found :=
    Std.ExtTreeSet.ext_mem fun r => (hmem r).trans (hfound r).symm
  exact h

/-- When a deletion is answered, and with what. -/
theorem deleteAnswer_eq_ok_iff :
    deleteAnswer mapping settings store o = .ok found ↔
      Changeable store o ∧ mapping.Smooth store o none ∧
      (∀ y, ReflTransGen (mapping.Embeds store) o y → mapping.SmoothPart store y) ∧
      ∀ r, r ∈ found ↔
        ∃ y, (Stale mapping store o none y ∨ ReflTransGen (mapping.Embeds store) o y) ∧
          mapping.HasDocument store y ∧ store.reference y = .ok r := by
  refine ⟨deleteAnswer_spec hm hclosed, fun ⟨ho, hsmooth, hparts, hfound⟩ => ?_⟩
  obtain ⟨found', h⟩ := exists_deleteAnswer hm hclosed settings ho hsmooth hparts
  have hmem := (deleteAnswer_spec hm hclosed h).2.2.2
  obtain rfl : found' = found :=
    Std.ExtTreeSet.ext_mem fun r => (hmem r).trans (hfound r).symm
  exact h

end

end IndexSync.Engine
