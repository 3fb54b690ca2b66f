import IndexSync.Proofs.Change.Answered
import IndexSync.Proofs.Change.Total
import IndexSync.Sample.Seats

/-!
# Documents of changeable objects

An object whose document has to be indexed again should itself be able to change.  Types
with a document are concrete, but only the types that are declared as indexed are checked
to be entities, not their subtypes.

- `Declarations.IndexesEntities` — no embeddable type inherits from a type declared as
  indexed.
- `indexesEntities_iff` — the condition says exactly that all types with a document are
  entities.
- `Engine.changeable_of_indexed` — under it every type with a document has a tree, and so
  has every object found by a request.
- `Engine.found_not_changeable` — without it an object can be found that cannot change.
-/

namespace IndexSync

variable {defs : List TypeDef} {schema : Schema} {ds : Declarations} {mapping : Mapping schema}

/-- All concrete types under a type declared as indexed are entities. -/
def Declarations.IndexesEntities (schema : Schema) (ds : Declarations) : Prop :=
  ∀ d ∈ ds.types, d.indexed = true → ∀ c, schema.isConcrete c = true →
    schema.fits c d.name = true → schema.isEntity c = true

namespace Mapping

/-- The types with a document are the concrete ones under a type declared as indexed. -/
theorem mem_indexed_iff (hcompile : compile schema ds = .ok mapping) {c : TypeName} :
    c ∈ mapping.indexed ↔ schema.isConcrete c = true ∧
      ∃ d ∈ ds.types, d.indexed = true ∧ schema.fits c d.name = true := by
  obtain ⟨F, -, rfl⟩ := eq_of_compile hcompile
  show c ∈ indexedConcretes schema ds ↔ _
  rw [indexedConcretes, List.mem_filter, Schema.mem_concretes_iff, List.any_eq_true]
  simp only [Bool.and_eq_true]

theorem indexesEntities_iff (hcompile : compile schema ds = .ok mapping) :
    ds.IndexesEntities schema ↔ ∀ c ∈ mapping.indexed, schema.isEntity c = true := by
  constructor
  · intro h c hc
    obtain ⟨hconcrete, d, hd, hindexed, hfits⟩ := (mem_indexed_iff hcompile).mp hc
    exact h d hd hindexed c hconcrete hfits
  · intro h d hd hindexed c hconcrete hfits
    exact h c ((mem_indexed_iff hcompile).mpr ⟨hconcrete, d, hd, hindexed, hfits⟩)

end Mapping

namespace Engine

variable {settings : Settings} {e : Engine schema} {store : ObjectStore schema} {o : ObjectId}
  {dirty : Option DirtySet} {found : EntitySet}

/-- The tree of a concrete entity type can be had from any engine. -/
theorem exists_treeFor (hm : schema.Coherent) (hcompile : Mapping.compile schema ds = .ok mapping)
    (hreach : Reached schema ds settings e) {type : TypeName}
    (hconcrete : schema.isConcrete type = true) (hentity : schema.isEntity type = true) :
    ∃ tree, ((treeFor type).run.run e).1 = .ok tree := by
  have hclosed := Mapping.closed_of_compile hm hcompile
  have hcheck := checkChangeable_of_isEntity hconcrete hentity
  obtain ⟨tree, -, hbuild, -⟩ := ChangeTree.build_spec hclosed.bounded settings.filtering type
  obtain ⟨_, hrun, -⟩ := answers_treeFor type e (reliable_of_reached hcompile hreach)
  refine ⟨tree, ?_⟩
  rw [hrun]
  exact treeOf_eq_ok.mpr ⟨hcheck, hbuild⟩

/-- An object of a type without trees is refused, whatever is asked of it. -/
theorem refused_of_checkChangeable (hcompile : Mapping.compile schema ds = .ok mapping)
    (hreach : Reached schema ds settings e) {type : TypeName} {err : SyncError}
    (hcheck : checkChangeable schema type = .error err) (ho : store.runtimeType o = .ok type) :
    ((treeFor type).run.run e).1 = .error err ∧
      (∀ dirty, ((afterChange store o dirty).run.run e).1 = .error err) ∧
      ((afterDelete store o).run.run e).1 = .error err := by
  have htree : treeOf mapping settings type = .error err := by
    rw [treeOf, hcheck]
    rfl
  have hanswer : ∀ nodes dirty, answerTo mapping settings store o nodes dirty = .error err := by
    intro nodes dirty
    rw [answerTo, ho]
    show (treeOf mapping settings type >>= _) = _
    rw [htree]
    rfl
  refine ⟨?_, ?_, ?_⟩
  · obtain ⟨_, hrun, -⟩ := answers_treeFor type e (reliable_of_reached hcompile hreach)
    rw [hrun]
    exact htree
  · intro dirty
    rw [run_afterChange hcompile hreach]
    exact hanswer _ _
  · rw [run_afterDelete hcompile hreach]
    exact hanswer _ _

/-- What a request finds are references of live objects that have a document. -/
theorem exists_document_of_found (hm : schema.Coherent)
    (hcompile : Mapping.compile schema ds = .ok mapping) (hreach : Reached schema ds settings e)
    (hfound : ((afterChange store o dirty).run.run e).1 = .ok found ∨
      ((afterDelete store o).run.run e).1 = .ok found) {r : EntityRef} (hr : r ∈ found) :
    ∃ y, mapping.HasDocument store y ∧ store.reference y = .ok r := by
  have hclosed := Mapping.closed_of_compile hm hcompile
  rw [run_afterChange hcompile hreach, run_afterDelete hcompile hreach] at hfound
  rcases hfound with hchange | hdelete
  · obtain ⟨-, -, hmem⟩ := changeAnswer_spec hm hclosed hchange
    obtain ⟨y, -, hdoc, hy⟩ := (hmem r).mp hr
    exact ⟨y, hdoc, hy⟩
  · obtain ⟨-, -, -, hmem⟩ := deleteAnswer_spec hm hclosed hdelete
    obtain ⟨y, -, hdoc, hy⟩ := (hmem r).mp hr
    exact ⟨y, hdoc, hy⟩

/-- If no embeddable type inherits from a type declared as indexed, every type with a
document is a concrete entity type and has a tree, and every object with a reference that
an update or a deletion finds can be updated or deleted in turn. -/
theorem changeable_of_indexed (hschema : Schema.ofDefinitions defs = .ok schema)
    (hcompile : Mapping.compile schema ds = .ok mapping) (hentities : ds.IndexesEntities schema)
    (hreach : Reached schema ds settings e) :
    (∀ c ∈ mapping.indexed, schema.isConcrete c = true ∧ schema.isEntity c = true ∧
      ∃ tree, ((treeFor c).run.run e).1 = .ok tree) ∧
    ∀ (store : ObjectStore schema) (o : ObjectId) (dirty : Option DirtySet) (found : EntitySet),
      ((afterChange store o dirty).run.run e).1 = .ok found ∨
        ((afterDelete store o).run.run e).1 = .ok found →
      ∀ r ∈ found, (∃ y, store.reference y = .ok r) ∧
        ∀ y, store.reference y = .ok r → Changeable store y ∧ store.runtimeType y = .ok r.type ∧
          ∃ tree, ((treeFor r.type).run.run e).1 = .ok tree := by
  have hm := Schema.coherent_of_accepted hschema
  have hindexed : ∀ c ∈ mapping.indexed, schema.isConcrete c = true ∧ schema.isEntity c = true ∧
      ∃ tree, ((treeFor c).run.run e).1 = .ok tree := by
    intro c hc
    have hconcrete := ((Mapping.mem_indexed_iff hcompile).mp hc).1
    have hentity := (Mapping.indexesEntities_iff hcompile).mp hentities c hc
    exact ⟨hconcrete, hentity, exists_treeFor hm hcompile hreach hconcrete hentity⟩
  refine ⟨hindexed, ?_⟩
  intro store o dirty found hfound r hr
  obtain ⟨y, ⟨type, hy, hdoc⟩, href⟩ := exists_document_of_found hm hcompile hreach hfound hr
  have htype := (ObjectStore.reference_eq_ok.mp href).1
  cases hy.symm.trans htype
  obtain ⟨hconcrete, hentity, htree⟩ := hindexed r.type (of_decide_eq_true hdoc)
  refine ⟨⟨y, href⟩, ?_⟩
  intro z hz
  have hz := (ObjectStore.reference_eq_ok.mp hz).1
  exact ⟨⟨r.type, hz, checkChangeable_of_isEntity hconcrete hentity⟩, hz, htree⟩

theorem changeable_of_indexed_couple :
    Sample.spouses.mapping.IndexesEntities Sample.coupleSchema ∧
      "Person" ∈ Sample.coupleMapping.indexed ∧
      (∃ tree, ((treeFor "Person").run.run Sample.coupleEngine).1 = .ok tree) ∧
      (∃ r ∈ Sample.renamedFound, ∃ y, Sample.couple.reference y = .ok r ∧
        Changeable Sample.couple y) := by
  have hentities : Sample.spouses.mapping.IndexesEntities Sample.coupleSchema :=
    (Mapping.indexesEntities_iff Sample.compile_couple).mpr (by decide +kernel)
  have hstart : Reached Sample.coupleSchema Sample.spouses.mapping {} Sample.coupleEngine :=
    .start (Except.eq_ok_value _)
  have hrun : ((afterChange Sample.couple 1 (some Sample.newName)).run.run
      Sample.coupleEngine).1 = .ok Sample.renamedFound := Except.eq_ok_value _
  have hr : (Sample.couple.reference 1).toOption.any Sample.renamedFound.contains = true := by
    decide +kernel
  obtain ⟨hindexed, hanswers⟩ :=
    changeable_of_indexed (Except.eq_ok_value _) Sample.compile_couple hentities hstart
  have hperson : "Person" ∈ Sample.coupleMapping.indexed := by decide +kernel
  refine ⟨hentities, hperson, (hindexed _ hperson).2.2, ?_⟩
  cases href : Sample.couple.reference 1 with
  | error err =>
      rw [href] at hr
      cases hr
  | ok r =>
      rw [href] at hr
      obtain ⟨-, hback⟩ := hanswers _ _ _ _ (.inl hrun) r hr
      exact ⟨r, hr, 1, href, (hback 1 href).1⟩

/-- An address is the seat of a firm.  Its type inherits the document of places, so a new
name of the firm finds the address; but the address is no entity, and neither its change
nor its deletion is answered. -/
theorem found_not_changeable :
    Schema.ofDefinitions Sample.seats.types = .ok Sample.seatsSchema ∧
      Mapping.compile Sample.seatsSchema Sample.seats.mapping = .ok Sample.seatsMapping ∧
      Engine.start Sample.seatsSchema Sample.seats.mapping {} = .ok Sample.seatsEngine ∧
      "Address" ∈ Sample.seatsMapping.indexed ∧
      Sample.seatsSchema.isEntity "Address" = false ∧
      ((afterChange Sample.seated 2 (some Sample.newName)).run.run Sample.seatsEngine).1 =
        .ok Sample.renamedFirmFound ∧
      Sample.renamedFirmFound.toList = [{ type := "Address", identity := .id (.text "A") }] ∧
      (Sample.seated.reference 1).toOption =
        some { type := "Address", identity := .id (.text "A") } ∧
      ((treeFor "Address").run.run Sample.seatsEngine).1 =
        .error (.mapping (.notAnEntity "Address" .changed)) ∧
      (∀ dirty, ((afterChange Sample.seated 1 dirty).run.run Sample.seatsEngine).1 =
        .error (.mapping (.notAnEntity "Address" .changed))) ∧
      ((afterDelete Sample.seated 1).run.run Sample.seatsEngine).1 =
        .error (.mapping (.notAnEntity "Address" .changed)) := by
  have hcompile : Mapping.compile Sample.seatsSchema Sample.seats.mapping =
      .ok Sample.seatsMapping := Except.eq_ok_value _
  have hstart : Engine.start Sample.seatsSchema Sample.seats.mapping {} =
      .ok Sample.seatsEngine := Except.eq_ok_value _
  have haddress : Sample.seated.runtimeType 1 = .ok "Address" :=
    Except.eq_ok_of_toOption (by decide +kernel)
  have hcheck : checkChangeable Sample.seatsSchema "Address" =
      .error (.mapping (.notAnEntity "Address" .changed)) := by rfl
  exact ⟨Except.eq_ok_value _, hcompile, hstart, by decide +kernel, by decide +kernel,
    Except.eq_ok_value _, by decide +kernel, by decide +kernel,
    refused_of_checkChangeable hcompile (.start hstart) hcheck haddress⟩

end Engine

end IndexSync
