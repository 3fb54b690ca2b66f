import IndexSync.Engine
import IndexSync.Proofs.Success

/-!
# Requests to an engine

What requests do to an engine.

- `Engine.Reached` — the engines that requests lead to from a start.
- `Engine.Faithful` — the engine still has its mapping and settings, and every tree
  it keeps is the one that building it afresh would give.
- `run_walk` — a walk answers what it has found, and counts its steps.
- `Engine.Keeps` — a request keeps a property of engines.
- `kept_of_reached` — what a fresh engine has and every request keeps, all of them have.
-/

namespace IndexSync.Engine

variable {schema : Schema}

/-- Engines that requests lead to. -/
inductive Reached (schema : Schema) (ds : Declarations) (settings : Settings) :
    Engine schema → Prop
  | start {e : Engine schema} : Engine.start schema ds settings = .ok e →
      Reached schema ds settings e
  | tree {e : Engine schema} (type : TypeName) : Reached schema ds settings e →
      Reached schema ds settings ((treeFor type).run.run e).2
  | change {e : Engine schema} (store : ObjectStore schema) (object : ObjectId)
      (dirty : Option DirtySet) : Reached schema ds settings e →
      Reached schema ds settings ((afterChange store object dirty).run.run e).2
  | delete {e : Engine schema} (store : ObjectStore schema) (object : ObjectId) :
      Reached schema ds settings e →
      Reached schema ds settings ((afterDelete store object).run.run e).2

/-- The mapping and the settings are those of the start, and every tree kept is
what building it gives. -/
structure Faithful (e : Engine schema) (mapping : Mapping schema) (settings : Settings) : Prop where
  keepsMapping : e.mapping = mapping
  keepsSettings : e.settings = settings
  builds : ∀ {type : TypeName} {tree : ChangeTree}, e.trees[type]? = some tree →
    ChangeTree.build mapping settings.filtering type = .ok tree

/-! ## Running requests -/

theorem run_bind {α β : Type} (x : Request schema α) (f : α → Request schema β)
    (e : Engine schema) :
    (x >>= f).run.run e = match x.run.run e with
      | (.ok a, e') => (f a).run.run e'
      | (.error err, e') => (.error err, e') := by
  rw [ExceptT.run_bind, StateT.run_bind]
  rcases x.run.run e with ⟨a | a, e'⟩ <;> rfl

theorem run_pure {α : Type} (a : α) (e : Engine schema) :
    (pure a : Request schema α).run.run e = (.ok a, e) :=
  rfl

theorem run_get (e : Engine schema) :
    (get : Request schema (Engine schema)).run.run e = (.ok e, e) :=
  rfl

theorem run_set (e e' : Engine schema) :
    (set e' : Request schema PUnit).run.run e = (.ok ⟨⟩, e') :=
  rfl

theorem run_discard {α : Type} (x : Request schema α) (e : Engine schema) :
    (discard x).run.run e = ((x.run.run e).1.map fun _ => ⟨⟩, (x.run.run e).2) := by
  rw [Functor.discard, map_const, Function.comp_apply, ExceptT.run_map, StateT.run_map]
  rfl

theorem run_runtimeType (store : ObjectStore schema) (object : ObjectId) (e : Engine schema) :
    (runtimeType store object).run.run e = ((store.runtimeType object).mapError .data, e) := by
  unfold runtimeType
  cases store.runtimeType object <;> rfl

theorem run_modifyCounters (f : Counters → Counters) (e : Engine schema) :
    (modifyCounters f).run.run e = (.ok (), { e with counters := f e.counters }) :=
  rfl

theorem run_liftExcept {α : Type} (x : Except SyncError α) (e : Engine schema) :
    (treeFor.liftExcept x : Request schema α).run.run e = (x, e) := by
  cases x <;> rfl

/-- What a walk answers, by how it has ended. -/
def answer : Walk.Ending × Walk.State → Except SyncError EntitySet
  | (.finished, s) => .ok s.findings.entities
  | (.failed err, _) => .error err
  | (.exhausted, _) => .error (.invariant .endless)

/-- Of the counters, a walk touches none but those of its steps. -/
theorem run_walk (tree : ChangeTree) (store : ObjectStore schema) (dirty : Option OrdinalSet)
    (nodes : List NodeId) (object : ObjectId) (e : Engine schema) :
    ∃ pruned cut, (walk tree store dirty nodes object).run.run e =
      (answer (({ arena := tree.arena, store, dirty } : Walk schema).run nodes object),
        { e with counters := { e.counters with pruned, cut } }) := by
  unfold walk
  simp only [run_bind, run_modifyCounters]
  generalize ({ arena := tree.arena, store, dirty } : Walk schema).run nodes object = ended
  obtain ⟨ending, s⟩ := ended
  cases ending <;> exact ⟨_, _, rfl⟩

/-! ## What requests keep -/

/-- The request ends in an engine with the property if it begins in one. -/
def Keeps {α : Type} (P : Engine schema → Prop) (x : Request schema α) : Prop :=
  ∀ e, P e → P (x.run.run e).2

namespace Keeps

variable {α β : Type} {P : Engine schema → Prop}

theorem pure (a : α) : Keeps P (pure a : Request schema α) :=
  fun _ h => h

theorem bind {x : Request schema α} {f : α → Request schema β} (hx : Keeps P x)
    (hf : ∀ a, Keeps P (f a)) : Keeps P (x >>= f) := by
  intro e h
  have hmid := hx e h
  rw [run_bind]
  cases hrun : x.run.run e with
  | mk result e₁ =>
      rw [hrun] at hmid
      cases result with
      | error err => exact hmid
      | ok a => exact hf a e₁ hmid

theorem foldlM {f : β → α → Request schema β} (hf : ∀ b a, Keeps P (f b a)) (as : List α)
    (b : β) : Keeps P (as.foldlM f b) := by
  induction as generalizing b with
  | nil => exact pure b
  | cons a as ih => exact (hf b a).bind ih

theorem get : Keeps P (get : Request schema (Engine schema)) :=
  fun _ h => h

theorem runtimeType (store : ObjectStore schema) (object : ObjectId) :
    Keeps P (runtimeType store object) := by
  intro e h
  rw [run_runtimeType]
  exact h

end Keeps

/-! ## Faithful engines -/

variable {mapping : Mapping schema} {settings : Settings} {e : Engine schema}

theorem Faithful.counting (h : e.Faithful mapping settings) (counters : Counters) :
    ({ e with counters } : Engine schema).Faithful mapping settings :=
  ⟨h.keepsMapping, h.keepsSettings, h.builds⟩

theorem Faithful.keeping (h : e.Faithful mapping settings) {type : TypeName} {tree : ChangeTree}
    (htree : ChangeTree.build mapping settings.filtering type = .ok tree) {e' : Engine schema}
    (hmapping : e'.mapping = mapping) (hsettings : e'.settings = settings)
    (htrees : e'.trees = e.trees.insert type tree) : e'.Faithful mapping settings where
  keepsMapping := hmapping
  keepsSettings := hsettings
  builds := by
    intro type' tree' h'
    rw [htrees, Std.ExtTreeMap.getElem?_insert] at h'
    by_cases heq : compare type type' = .eq
    · rw [if_pos heq] at h'
      cases Std.LawfulEqCmp.eq_of_compare heq
      cases h'
      exact htree
    · rw [if_neg heq] at h'
      exact h.builds h'

/-! ## Engines that requests lead to -/

section

variable {P : Engine schema → Prop} (htree : ∀ e type, P e → P ((treeFor type).run.run e).2)
include htree

theorem kept_of_forM (h : P e) (types : List TypeName) :
    P ((types.forM fun type => discard (treeFor type) : Request schema Unit).run.run e).2 := by
  induction types generalizing e with
  | nil => exact h
  | cons type types ih =>
      have hbuilt := htree e type h
      show P ((discard (treeFor type) >>= fun _ => types.forM fun type => discard (treeFor type) :
        Request schema Unit).run.run e).2
      rw [run_bind, run_discard]
      cases hrun : (treeFor type).run.run e with
      | mk result e' =>
          rw [hrun] at hbuilt
          cases result with
          | error err => exact hbuilt
          | ok tree => exact ih hbuilt

/-- What holds of a fresh engine, and is kept when trees are built, holds at the start. -/
theorem kept_of_start {ds : Declarations} (hcompile : Mapping.compile schema ds = .ok mapping)
    (hfresh : P { mapping, settings, trees := ∅, counters := {} })
    (h : Engine.start schema ds settings = .ok e) : P e := by
  simp only [Engine.start, hcompile, Except.mapError, Except.bind_eq_ok, Except.ok.injEq,
    exists_eq_left'] at h
  cases heager : settings.eager with
  | false =>
      simp only [heager, Bool.false_eq_true, if_false] at h
      cases h
      exact hfresh
  | true =>
      simp only [heager, if_true] at h
      have hbuilt := kept_of_forM htree hfresh (schema.concretes.filter schema.isEntity)
      split at h
      · rename_i built hrun
        cases h
        rw [hrun] at hbuilt
        exact hbuilt
      · -- a tree that cannot be built stops the start
        cases h

/-- What every request keeps holds of all engines that requests lead to. -/
theorem kept_of_reached {ds : Declarations} (hcompile : Mapping.compile schema ds = .ok mapping)
    (hfresh : P { mapping, settings, trees := ∅, counters := {} })
    (hchange : ∀ e store object dirty, P e → P ((afterChange store object dirty).run.run e).2)
    (hdelete : ∀ e store object, P e → P ((afterDelete store object).run.run e).2)
    (h : Reached schema ds settings e) : P e := by
  induction h with
  | start h => exact kept_of_start htree hcompile hfresh h
  | tree type _ ih => exact htree _ type ih
  | change store object dirty _ ih => exact hchange _ store object dirty ih
  | delete store object _ ih => exact hdelete _ store object ih

end

theorem faithful_fresh : ({ mapping, settings, trees := ∅, counters := {} } :
    Engine schema).Faithful mapping settings :=
  ⟨rfl, rfl, fun h => by simp at h⟩

end IndexSync.Engine
