import IndexSync.Proofs.Engine

/-!
# Answers without a history

What an engine answers depends on its mapping and settings, and not on what it was asked
before.

- `Engine.Reliable` — the engine keeps only trees that it would give afresh; every engine
  that requests lead to is reliable (`reliable_of_reached`).
- `Engine.Answers` — the answer of a request to any reliable engine, with one lemma for
  each way to put requests together.
- `Engine.treeOf`, `Engine.changeAnswer`, `Engine.deleteAnswer` — the answers to the three
  requests, by mapping and settings alone (`run_afterChange`, `run_afterDelete`,
  `run_relevantPaths`).
- `Engine.answerTo_eq_ok` — a request is answered with what a finished walk has found.
-/

namespace IndexSync.Engine

variable {schema : Schema}

/-- Every tree kept is the one that would be built afresh, of a type that has one. -/
structure Reliable (e : Engine schema) (mapping : Mapping schema) (settings : Settings) :
    Prop where
  faithful : e.Faithful mapping settings
  changeable : ∀ {type : TypeName} {tree : ChangeTree}, e.trees[type]? = some tree →
    checkChangeable schema type = .ok ()

/-- Every reliable engine gives the answer, and is reliable afterwards. -/
def Answers {α : Type} (mapping : Mapping schema) (settings : Settings) (x : Request schema α)
    (result : Except SyncError α) : Prop :=
  ∀ e : Engine schema, e.Reliable mapping settings →
    ∃ e', x.run.run e = (result, e') ∧ e'.Reliable mapping settings

/-- The tree of a type. -/
def treeOf (mapping : Mapping schema) (settings : Settings) (type : TypeName) :
    Except SyncError ChangeTree := do
  checkChangeable schema type
  ChangeTree.build mapping settings.filtering type

/-- What the walk from the given nodes of an object's tree answers. -/
def answerTo (mapping : Mapping schema) (settings : Settings) (store : ObjectStore schema)
    (object : ObjectId) (nodes : ChangeTree → List NodeId)
    (dirty : ChangeTree → Option OrdinalSet) : Except SyncError EntitySet := do
  let type ← (store.runtimeType object).mapError .data
  let tree ← treeOf mapping settings type
  answer (({ arena := tree.arena, store, dirty := dirty tree } : Walk schema).run (nodes tree)
    object)

/-- The answer to an update. -/
def changeAnswer (mapping : Mapping schema) (settings : Settings) (store : ObjectStore schema)
    (object : ObjectId) (dirty : Option DirtySet) : Except SyncError EntitySet :=
  answerTo mapping settings store object (fun tree => tree.root.toList)
    fun tree => dirty.map tree.table.hitBy

/-- The answer to a deletion. -/
def deleteAnswer (mapping : Mapping schema) (settings : Settings) (store : ObjectStore schema)
    (object : ObjectId) : Except SyncError EntitySet :=
  answerTo mapping settings store object (fun tree => tree.root.toList ++ tree.ownPart.toList)
    fun _ => none

variable {mapping : Mapping schema} {settings : Settings} {e : Engine schema} {α β : Type}

/-! ## Putting requests together -/

theorem Reliable.counting (h : e.Reliable mapping settings) (counters : Counters) :
    ({ e with counters } : Engine schema).Reliable mapping settings :=
  ⟨h.faithful.counting counters, h.changeable⟩

namespace Answers

theorem pure (a : α) : Answers mapping settings (pure a) (.ok a) :=
  fun e h => ⟨e, rfl, h⟩

theorem throw (err : SyncError) :
    Answers mapping settings (throw err : Request schema α) (.error err) :=
  fun e h => ⟨e, rfl, h⟩

theorem bind {x : Request schema α} {f : α → Request schema β} {result : Except SyncError α}
    {next : α → Except SyncError β} (hx : Answers mapping settings x result)
    (hf : ∀ a, Answers mapping settings (f a) (next a)) :
    Answers mapping settings (x >>= f) (result >>= next) := by
  intro e h
  obtain ⟨e₁, hrun, h₁⟩ := hx e h
  rw [run_bind, hrun]
  cases result with
  | error err => exact ⟨e₁, rfl, h₁⟩
  | ok a => exact hf a e₁ h₁

/-- What is read from an engine is its mapping. -/
theorem get_bind {f : Engine schema → Request schema β} {result : Except SyncError β}
    (hf : ∀ e : Engine schema, e.mapping = mapping → Answers mapping settings (f e) result) :
    Answers mapping settings (get >>= f) result := by
  intro e h
  rw [run_bind, run_get]
  exact hf e h.faithful.keepsMapping e h

theorem foldlM {f : β → α → Request schema β} {g : β → α → Except SyncError β}
    (hf : ∀ b a, Answers mapping settings (f b a) (g b a)) (as : List α) (b : β) :
    Answers mapping settings (as.foldlM f b) (as.foldlM g b) := by
  induction as generalizing b with
  | nil => exact pure b
  | cons a as ih =>
      rw [List.foldlM_cons, List.foldlM_cons]
      exact (hf b a).bind ih

theorem mapM {f : α → Request schema β} {g : α → Except SyncError β}
    (hf : ∀ a, Answers mapping settings (f a) (g a)) (as : List α) :
    Answers mapping settings (as.mapM f) (as.mapM g) := by
  induction as with
  | nil => exact pure []
  | cons a as ih =>
      rw [List.mapM_cons, List.mapM_cons]
      exact (hf a).bind fun b => ih.bind fun bs => pure (b :: bs)

theorem modifyCounters (f : Counters → Counters) :
    Answers mapping settings (modifyCounters f : Request schema Unit) (.ok ()) :=
  fun _ h => ⟨_, rfl, h.counting _⟩

end Answers

/-! ## The requests -/

theorem answers_treeFor (type : TypeName) :
    Answers mapping settings (treeFor type) (treeOf mapping settings type) := by
  intro e h
  unfold treeFor treeOf
  simp only [run_bind, run_get]
  cases hknown : e.trees[type]? with
  | some known =>
      refine ⟨e, ?_, h⟩
      rw [h.changeable hknown]
      show (Except.ok known, e) = (ChangeTree.build mapping settings.filtering type, e)
      rw [h.faithful.builds hknown]
  | none =>
      simp only [run_bind, run_liftExcept, run_get, run_set, run_pure]
      cases hcheck : checkChangeable schema type with
      | error err => exact ⟨e, rfl, h⟩
      | ok _ =>
          simp only [h.faithful.keepsMapping, h.faithful.keepsSettings]
          cases hbuild : ChangeTree.build mapping settings.filtering type with
          | error err => exact ⟨e, rfl, h⟩
          | ok tree =>
              refine ⟨_, rfl, h.faithful.keeping hbuild rfl rfl rfl, ?_⟩
              intro type' tree' h'
              rw [Std.ExtTreeMap.getElem?_insert] at h'
              by_cases heq : compare type type' = .eq
              · rw [← Std.LawfulEqCmp.eq_of_compare heq]
                exact hcheck
              · rw [if_neg heq] at h'
                exact h.changeable h'

theorem answers_runtimeType (store : ObjectStore schema) (object : ObjectId) :
    Answers mapping settings (runtimeType store object)
      ((store.runtimeType object).mapError .data) :=
  fun e h => ⟨e, run_runtimeType store object e, h⟩

theorem answers_walk (tree : ChangeTree) (store : ObjectStore schema)
    (dirty : Option OrdinalSet) (nodes : List NodeId) (object : ObjectId) :
    Answers mapping settings (walk tree store dirty nodes object)
      (answer (({ arena := tree.arena, store, dirty } : Walk schema).run nodes object)) := by
  intro e h
  obtain ⟨pruned, cut, hrun⟩ := run_walk tree store dirty nodes object e
  exact ⟨_, hrun, h.counting _⟩

theorem answers_resolve (store : ObjectStore schema) (object : ObjectId)
    (nodes : ChangeTree → List NodeId) (dirty : ChangeTree → Option OrdinalSet)
    (count : Counters → Counters) :
    Answers mapping settings (resolve store object nodes dirty count)
      (answerTo mapping settings store object nodes dirty) := by
  unfold resolve answerTo
  refine (answers_runtimeType store object).bind fun type => ?_
  refine (answers_treeFor type).bind fun tree => ?_
  -- counting what was found does not change the answer
  rw [← bind_pure (answer _)]
  refine (answers_walk tree store (dirty tree) (nodes tree) object).bind fun found => ?_
  exact (Answers.modifyCounters _).bind fun _ => Answers.pure found

theorem answers_afterChange (store : ObjectStore schema) (object : ObjectId)
    (dirty : Option DirtySet) :
    Answers mapping settings (afterChange store object dirty)
      (changeAnswer mapping settings store object dirty) :=
  answers_resolve store object _ _ _

theorem answers_afterDelete (store : ObjectStore schema) (object : ObjectId) :
    Answers mapping settings (afterDelete store object)
      (deleteAnswer mapping settings store object) :=
  answers_resolve store object _ _ _

/-! ## Engines that requests lead to -/

/-- An engine that answers is reliable afterwards. -/
theorem Answers.reliable {x : Request schema α} {result : Except SyncError α}
    (hx : Answers mapping settings x result) (h : e.Reliable mapping settings) :
    (x.run.run e).2.Reliable mapping settings := by
  obtain ⟨e', hrun, he'⟩ := hx e h
  rw [hrun]
  exact he'

/-- An engine that has built no tree yet. -/
def fresh (mapping : Mapping schema) (settings : Settings) : Engine schema :=
  { mapping, settings, trees := ∅, counters := {} }

theorem reliable_fresh : (fresh mapping settings).Reliable mapping settings :=
  ⟨faithful_fresh, fun h => by simp [fresh] at h⟩

/-- Requests keep an engine reliable. -/
theorem reliable_of_reached {ds : Declarations} (hcompile : Mapping.compile schema ds = .ok mapping)
    (h : Reached schema ds settings e) : e.Reliable mapping settings := by
  refine kept_of_reached (P := (·.Reliable mapping settings)) ?_ hcompile reliable_fresh ?_ ?_ h
  · exact fun e type h => (answers_treeFor type).reliable h
  · exact fun e store object dirty h => (answers_afterChange store object dirty).reliable h
  · exact fun e store object h => (answers_afterDelete store object).reliable h

/-! ## Answers of any engine -/

section

variable {ds : Declarations} (hcompile : Mapping.compile schema ds = .ok mapping)
  (hreach : Reached schema ds settings e)
include hcompile hreach

theorem run_afterChange (store : ObjectStore schema) (o : ObjectId) (dirty : Option DirtySet) :
    ((afterChange store o dirty).run.run e).1 = changeAnswer mapping settings store o dirty := by
  obtain ⟨_, hrun, -⟩ := answers_afterChange store o dirty e (reliable_of_reached hcompile hreach)
  rw [hrun]

theorem run_afterDelete (store : ObjectStore schema) (o : ObjectId) :
    ((afterDelete store o).run.run e).1 = deleteAnswer mapping settings store o := by
  obtain ⟨_, hrun, -⟩ := answers_afterDelete store o e (reliable_of_reached hcompile hreach)
  rw [hrun]

theorem run_relevantPaths (type : TypeName) :
    ((relevantPaths type).run.run e).1 = (treeOf mapping settings type).map (·.relevantPaths) := by
  obtain ⟨_, hrun, -⟩ := answers_treeFor type e (reliable_of_reached hcompile hreach)
  rw [relevantPaths, run_bind, hrun]
  cases treeOf mapping settings type <;> rfl

end

/-! ## Answers by walks -/

variable {store : ObjectStore schema} {o : ObjectId} {found : EntitySet}

theorem answer_eq_ok {ended : Walk.Ending × Walk.State} :
    answer ended = .ok found ↔ ∃ s, ended = (.finished, s) ∧ s.findings.entities = found := by
  obtain ⟨ending, s⟩ := ended
  cases ending <;> simp [answer]

theorem treeOf_eq_ok {type : TypeName} {tree : ChangeTree} :
    treeOf mapping settings type = .ok tree ↔ checkChangeable schema type = .ok () ∧
      ChangeTree.build mapping settings.filtering type = .ok tree := by
  unfold treeOf
  rw [Except.bind_eq_ok]
  exact ⟨fun ⟨_, hcheck, hbuild⟩ => ⟨hcheck, hbuild⟩, fun ⟨hcheck, hbuild⟩ => ⟨(), hcheck, hbuild⟩⟩

/-- A request is answered if the object is changeable and the walk through its tree comes
to its end. -/
theorem answerTo_eq_ok {nodes : ChangeTree → List NodeId} {known : ChangeTree → Option OrdinalSet} :
    answerTo mapping settings store o nodes known = .ok found ↔
      ∃ type tree s, store.runtimeType o = .ok type ∧
        checkChangeable schema type = .ok () ∧
        ChangeTree.build mapping settings.filtering type = .ok tree ∧
        ({ arena := tree.arena, store, dirty := known tree } : Walk schema).run (nodes tree) o =
          (.finished, s) ∧ s.findings.entities = found := by
  simp only [answerTo, Except.bind_eq_ok, Except.mapError_eq_ok, treeOf_eq_ok, answer_eq_ok]
  constructor
  · rintro ⟨type, ho, tree, ⟨hcheck, hbuild⟩, s, hrun, hfound⟩
    exact ⟨type, tree, s, ho, hcheck, hbuild, hrun, hfound⟩
  · rintro ⟨type, tree, s, ho, hcheck, hbuild, hrun, hfound⟩
    exact ⟨type, ho, tree, ⟨hcheck, hbuild⟩, s, hrun, hfound⟩

end IndexSync.Engine
