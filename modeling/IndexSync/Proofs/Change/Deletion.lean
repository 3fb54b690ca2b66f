import IndexSync.Proofs.Change.Additive

/-!
# What a deletion takes in

A deletion is answered with what a change at any path would be, and with all that embed the
deleted object, itself among them.

- `Engine.deletion_extends_change` — the answer to a deletion against those to changes.
-/

namespace IndexSync.Engine

open Relation (ReflTransGen)

variable {defs : List TypeDef} {schema : Schema} {ds : Declarations} {mapping : Mapping schema}
  {settings : Settings} {e : Engine schema} {store : ObjectStore schema} {o : ObjectId}
  {found : EntitySet}

/-- Where a deletion is answered, so is every change of the object. The deletion finds what
a change at any path does, together with the documents that embed the object through any
chain of edges, and so the object's own document. -/
theorem deletion_extends_change (hschema : Schema.ofDefinitions defs = .ok schema)
    (hcompile : Mapping.compile schema ds = .ok mapping) (hreach : Reached schema ds settings e)
    (hrun : ((afterDelete store o).run.run e).1 = .ok found) :
    (∃ changed, ((afterChange store o none).run.run e).1 = .ok changed ∧
      ∀ r, r ∈ found ↔ r ∈ changed ∨ ∃ y, ReflTransGen (mapping.Embeds store) o y ∧
        mapping.HasDocument store y ∧ store.reference y = .ok r) ∧
    (∀ y, ReflTransGen (mapping.Embeds store) o y → mapping.HasDocument store y →
      ∃ r ∈ found, store.reference y = .ok r) ∧
    (mapping.HasDocument store o → ∃ r ∈ found, store.reference o = .ok r) ∧
    ∀ d : DirtySet, ∃ part, ((afterChange store o (some d)).run.run e).1 = .ok part ∧
      ∀ r ∈ part, r ∈ found := by
  have hm := Schema.coherent_of_accepted hschema
  have hclosed := Mapping.closed_of_compile hm hcompile
  rw [run_afterDelete hcompile hreach] at hrun
  simp only [run_afterChange hcompile hreach]
  obtain ⟨ho, hsmooth, hparts, hmem⟩ := deleteAnswer_spec hm hclosed hrun
  have hany : mapping.Smooth store o (if settings.filtering then none else none) := by
    rwa [ite_self]
  obtain ⟨changed, hchanged⟩ := exists_changeAnswer hm hclosed settings none ho hany
  have hstale := (changeAnswer_spec hm hclosed hchanged).2.2
  rw [ite_self] at hstale
  have hall : ∀ r, r ∈ found ↔ r ∈ changed ∨ ∃ y, ReflTransGen (mapping.Embeds store) o y ∧
      mapping.HasDocument store y ∧ store.reference y = .ok r := by
    intro r
    rw [hmem, hstale]
    simp only [or_and_right, exists_or]
  have hembed : ∀ y, ReflTransGen (mapping.Embeds store) o y → mapping.HasDocument store y →
      ∃ r ∈ found, store.reference y = .ok r := by
    intro y hy hdoc
    obtain ⟨r, hr⟩ := (hparts y hy).reference hdoc
    exact ⟨r, (hall r).mpr (.inr ⟨y, hy, hdoc, hr⟩), hr⟩
  refine ⟨⟨changed, hchanged, hall⟩, hembed, hembed o .refl, fun d => ?_⟩
  obtain ⟨part, hpart, hsub, -⟩ := exists_changeAnswer_of_any hm hclosed hchanged d
  exact ⟨part, hpart, fun r hr => (hall r).mpr (.inl (hsub r hr))⟩

theorem deletion_extends_change_couple :
    (∃ changed, ((afterChange Sample.couple 1 none).run.run Sample.coupleEngine).1 =
        .ok changed ∧
      ∀ r, r ∈ Sample.deletedFound ↔ r ∈ changed ∨
        ∃ y, ReflTransGen (Sample.coupleMapping.Embeds Sample.couple) 1 y ∧
          Sample.coupleMapping.HasDocument Sample.couple y ∧
          Sample.couple.reference y = .ok r) ∧
    (∃ r ∈ Sample.deletedFound, Sample.couple.reference 1 = .ok r) ∧
    ∃ part, ((afterChange Sample.couple 1 (some Sample.newName)).run.run
        Sample.coupleEngine).1 = .ok part ∧ ∀ r ∈ part, r ∈ Sample.deletedFound := by
  have hstart : Reached Sample.coupleSchema Sample.spouses.mapping {} Sample.coupleEngine :=
    .start (Except.eq_ok_value _)
  have hrun : ((afterDelete Sample.couple 1).run.run Sample.coupleEngine).1 =
      .ok Sample.deletedFound := Except.eq_ok_value _
  obtain ⟨hchanged, -, hown, hpart⟩ :=
    deletion_extends_change (Except.eq_ok_value _) Sample.compile_couple hstart hrun
  have hindexed : Sample.coupleMapping.isIndexed "Person" = true := by decide +kernel
  exact ⟨hchanged, hown ⟨"Person", Except.eq_ok_of_toOption reads_couple.2.2.1, hindexed⟩,
    hpart Sample.newName⟩

end IndexSync.Engine
