import IndexSync.Proofs.Change.Documents
import IndexSync.Proofs.Typing.Walks

/-!
# Updates that cannot fail

- `Engine.exists_found_of_finished` — a request answers if its walk comes to an end.
- `Engine.exists_found` — over a store that conforms to its schema, every update and
  every deletion of an entity is answered.
-/

namespace IndexSync.Engine

variable {defs : List TypeDef} {schema : Schema} {ds : Declarations} {mapping : Mapping schema}
  {settings : Settings} {e : Engine schema} {store : ObjectStore schema} {o : ObjectId}
  {type : TypeName} {dirty : Option DirtySet}

theorem checkChangeable_of_isEntity (hconcrete : schema.isConcrete type = true)
    (hentity : schema.isEntity type = true) : checkChangeable schema type = .ok () := by
  unfold checkChangeable
  unfold Schema.isConcrete at hconcrete
  unfold Schema.isEntity at hentity
  cases hd : schema.definition? type with
  | none => simp [hd] at hentity
  | some d =>
      have habstract : d.isAbstract = false := by simpa [hd] using hconcrete
      have hkind : d.isEntity = true := by simpa [hd] using hentity
      simp [habstract, hkind]

/-- A request for an entity answers if its walk through the entity's tree comes to an
end. -/
theorem exists_found_of_finished (hm : schema.Coherent)
    (hcompile : Mapping.compile schema ds = .ok mapping) (hreach : Reached schema ds settings e)
    (ho : store.runtimeType o = .ok type) (hentity : schema.isEntity type = true)
    {nodes : ChangeTree → List NodeId} {dirtyIn : ChangeTree → Option OrdinalSet}
    {count : Counters → Counters}
    (hfinished : ∀ tree l, ChangeTree.Built mapping settings.filtering type tree l →
      ∃ s, ({ arena := tree.arena, store, dirty := dirtyIn tree } : Walk schema).run (nodes tree)
        o = (.finished, s)) :
    ∃ found, ((resolve store o nodes dirtyIn count).run.run e).1 = .ok found := by
  have hclosed := Mapping.closed_of_compile hm hcompile
  obtain ⟨tree, l, hbuild, hbuilt⟩ :=
    ChangeTree.build_spec hclosed.bounded settings.filtering type
  obtain ⟨s, hwalk⟩ := hfinished tree l hbuilt
  have hcheck := checkChangeable_of_isEntity (store.isConcrete_of_runtimeType ho) hentity
  obtain ⟨e', hrun, -⟩ :=
    answers_resolve store o nodes dirtyIn count e (reliable_of_reached hcompile hreach)
  refine ⟨s.findings.entities, ?_⟩
  rw [hrun]
  exact answerTo_eq_ok.mpr ⟨type, tree, s, ho, hcheck, hbuild, hwalk, rfl⟩

/-- Over a store that conforms to its schema, every update and every deletion of a live
entity is answered. -/
theorem exists_found (hschema : Schema.ofDefinitions defs = .ok schema)
    (hagree : schema.Agrees) (hid : schema.Identifies)
    (hcompile : Mapping.compile schema ds = .ok mapping) (hreach : Reached schema ds settings e)
    (hs : store.Conforms) (ho : store.runtimeType o = .ok type)
    (hentity : schema.isEntity type = true) :
    (∃ found, ((afterChange store o dirty).run.run e).1 = .ok found) ∧
      ∃ found, ((afterDelete store o).run.run e).1 = .ok found := by
  have hm := Schema.coherent_of_accepted hschema
  have htyped := Mapping.typed_of_compile hm hcompile
  constructor
  · refine exists_found_of_finished hm hcompile hreach ho hentity fun tree l hbuilt => ?_
    let w : Walk schema := { arena := tree.arena, store, dirty := dirty.map tree.table.hitBy }
    have hends := ChangeTree.exists_finished (w := w) hbuilt rfl hs hm hagree hid htyped ho rfl
    exact hends.1
  · refine exists_found_of_finished hm hcompile hreach ho hentity fun tree l hbuilt => ?_
    let w : Walk schema := { arena := tree.arena, store, dirty := none }
    -- a deletion counts as a change at any path
    have hdirty : w.dirty = (none : Option DirtySet).map tree.table.hitBy := rfl
    have hends := ChangeTree.exists_finished hbuilt rfl hs hm hagree hid htyped ho hdirty
    exact hends.2

/-! ## The couple -/

section

open Sample

/-- What is declared about persons, and what the two have for it. -/
theorem values_couple :
    coupleSchema.typeNames = ["Person"] ∧
    coupleSchema.properties "Person" = [{ name := "id", type := .scalar .integer },
      { name := "name", type := .scalar .text }, { name := "spouse", type := .object "Person" }] ∧
    (∀ d ∈ coupleSchema.definitions, ∀ name ∈ d.idProperty?,
      (coupleSchema.property? d.name name).isSome = true) ∧
    (couple.read 1 "id").toOption = some (.integer 0) ∧
    (couple.read 2 "id").toOption = some (.integer 1) ∧
    (couple.read 1 "name").toOption = some (.text "person 0") ∧
    (couple.read 2 "name").toOption = some (.text "person 1") := by
  decide +kernel

theorem coherent_couple : coupleSchema.Coherent :=
  Schema.coherent_of_accepted (Except.eq_ok_value _)

theorem eq_person_of_declares {type : TypeName} (h : coupleSchema.declares type = true) :
    type = "Person" := by
  rw [← Schema.mem_typeNames_iff, values_couple.1] at h
  exact List.mem_singleton.mp h

theorem agrees_couple : coupleSchema.Agrees := by
  intro sub sup name p q hfits hp hq
  have hsub := eq_person_of_declares (coherent_couple.declares_left hfits)
  have hsup := eq_person_of_declares (coherent_couple.declares_right hfits)
  rw [hsub] at hp
  rw [hsup] at hq
  cases hp.symm.trans hq
  rfl

theorem conforms_couple : couple.Conforms := by
  intro o type name p v ho hp hread
  obtain rfl := eq_person_of_declares
    (Schema.isConcrete_iff.mp (couple.isConcrete_of_runtimeType ho)).1
  have hmem : p ∈ coupleSchema.properties "Person" := List.mem_of_find?_eq_some hp
  have hname : p.name = name := by
    have hfound := List.find?_some hp
    exact of_decide_eq_true hfound
  have hfirst : couple.IsA 1 "Person" := isA_person (.inl rfl)
  have hsecond : couple.IsA 2 "Person" := isA_person (.inr rfl)
  obtain ⟨-, hproperties, -, hid₁, hid₂, hname₁, hname₂⟩ := values_couple
  rw [hproperties] at hmem
  subst hname
  simp only [List.mem_cons, List.not_mem_nil, or_false] at hmem
  rcases eq_one_or_two ho with rfl | rfl
  · rcases hmem with rfl | rfl | rfl
    · cases hread.symm.trans (Except.eq_ok_of_toOption hid₁)
      exact .integer
    · cases hread.symm.trans (Except.eq_ok_of_toOption hname₁)
      exact .text
    · cases hread.symm.trans read_one
      exact .ref hsecond
  · rcases hmem with rfl | rfl | rfl
    · cases hread.symm.trans (Except.eq_ok_of_toOption hid₂)
      exact .integer
    · cases hread.symm.trans (Except.eq_ok_of_toOption hname₂)
      exact .text
    · cases hread.symm.trans read_two
      exact .ref hfirst

end

theorem exists_found_couple :
    Sample.coupleSchema.Agrees ∧ Sample.coupleSchema.Identifies ∧ Sample.couple.Conforms ∧
      (∃ found, ((afterChange Sample.couple 1 (some Sample.newName)).run.run
        Sample.coupleEngine).1 = .ok found) ∧
      ∃ found, ((afterDelete Sample.couple 1).run.run Sample.coupleEngine).1 = .ok found :=
  ⟨agrees_couple, values_couple.2.2.1, conforms_couple,
    exists_found (Except.eq_ok_value _) agrees_couple values_couple.2.2.1 Sample.compile_couple
      (.start (Except.eq_ok_value _)) conforms_couple
      (Except.eq_ok_of_toOption reads_couple.2.2.1) isEntity_person⟩

end IndexSync.Engine
