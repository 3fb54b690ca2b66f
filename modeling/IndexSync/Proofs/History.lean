import Mathlib.Data.List.Dedup
import IndexSync.Report
import IndexSync.Proofs.Change.Total
import IndexSync.Proofs.Tree.Building

/-!
# Histories of calls

An engine is called again and again, with failing calls among the others.  What it has been
called for before shows in its trees and its counters, and in no reply.

- `Call`, `Reply` — what an engine can be called for, and what it comes back with.
- `Engine.after`, `Engine.log` — the engine after a list of calls, and these with their
  replies.
- `Engine.Grows` — what calls do to an engine: trees of the types asked for are built, each
  once, and what is answered is counted (`Engine.grows_after`).
- `Engine.exists_start` — every compiled mapping can be started.
- `Engine.replies_afresh` — replies are those of a fresh engine, and the counters of an
  engine say what it has done.
-/

namespace IndexSync

/-- What an engine can be called for. -/
inductive Call (schema : Schema) where
  | change (store : ObjectStore schema) (object : ObjectId) (dirty : Option DirtySet)
  | delete (store : ObjectStore schema) (object : ObjectId)
  | tree (type : TypeName)
  | relevantPaths (type : TypeName)
  | explain (type : TypeName)

/-- What a call comes back with. -/
inductive Reply where
  | found (entities : EntitySet)
  | tree (tree : ChangeTree)
  | paths (paths : List String)
  | text (text : String)

variable {schema : Schema}

namespace Call

def request : Call schema → Request schema Reply
  | change store object dirty => return .found (← Engine.afterChange store object dirty)
  | delete store object => return .found (← Engine.afterDelete store object)
  | tree type => return .tree (← Engine.treeFor type)
  | relevantPaths type => return .paths (← Engine.relevantPaths type)
  | explain type => return .text (← Engine.treeFor type).explain

/-- The reply by mapping and settings alone. -/
def reply (mapping : Mapping schema) (settings : Settings) :
    Call schema → Except SyncError Reply
  | change store object dirty =>
    return .found (← Engine.changeAnswer mapping settings store object dirty)
  | delete store object => return .found (← Engine.deleteAnswer mapping settings store object)
  | tree type => return .tree (← Engine.treeOf mapping settings type)
  | relevantPaths type => return .paths (← Engine.treeOf mapping settings type).relevantPaths
  | explain type => return .text (← Engine.treeOf mapping settings type).explain

/-- The type whose tree the call asks for; an object that is not there has none. -/
def asked? : Call schema → Option TypeName
  | change store object _ => (store.runtimeType object).toOption
  | delete store object => (store.runtimeType object).toOption
  | tree type => some type
  | relevantPaths type => some type
  | explain type => some type

/-- An update that was answered. -/
def isResolution : Call schema × Except SyncError Reply → Bool
  | (change .., .ok _) => true
  | _ => false

/-- A deletion that was answered. -/
def isDelete : Call schema × Except SyncError Reply → Bool
  | (delete .., .ok _) => true
  | _ => false

/-- How many entities were handed out. -/
def collected : Call schema × Except SyncError Reply → Nat
  | (_, .ok (.found entities)) => entities.size
  | _ => 0

end Call

namespace Engine

/-- The engine after calls, first to last. -/
def after (e : Engine schema) : List (Call schema) → Engine schema
  | [] => e
  | call :: rest => after (call.request.run.run e).2 rest

/-- The calls with what each of them comes back with. -/
def log (e : Engine schema) : List (Call schema) → List (Call schema × Except SyncError Reply)
  | [] => []
  | call :: rest => (call, (call.request.run.run e).1) :: log (call.request.run.run e).2 rest

/-- What requests make of an engine: every type asked for that has a tree has it built,
once, and what is answered is counted. -/
structure Grows (e e' : Engine schema) (asked : List TypeName)
    (resolutions deletes collected : Nat) : Prop where
  mem_trees : ∀ type, type ∈ e'.trees ↔
    type ∈ e.trees ∨ type ∈ asked ∧ checkChangeable schema type = .ok ()
  once : e.treeCount = e.counters.trees → e'.treeCount = e'.counters.trees
  resolutions : e'.counters.resolutions = e.counters.resolutions + resolutions
  deletes : e'.counters.deletes = e.counters.deletes + deletes
  collected : e'.counters.collected = e.counters.collected + collected

variable {mapping : Mapping schema} {settings : Settings} {e e' e'' : Engine schema}
  {type : TypeName} {store : ObjectStore schema} {object : ObjectId}

/-! ## What requests do -/

theorem checkChangeable_iff :
    checkChangeable schema type = .ok () ↔ type ∈ schema.concreteEntities := by
  rw [Schema.concreteEntities, List.mem_filter, Schema.mem_concretes_iff]
  refine ⟨?_, fun ⟨hconcrete, hentity⟩ => checkChangeable_of_isEntity hconcrete hentity⟩
  unfold checkChangeable Schema.isConcrete Schema.isEntity
  cases schema.definition? type with
  | none => nofun
  | some d =>
      cases habstract : d.isAbstract <;> cases hentity : d.isEntity <;>
        simp [habstract, hentity]

theorem Grows.refl (e : Engine schema) : Grows e e [] 0 0 0 where
  mem_trees := by simp
  once := id
  resolutions := rfl
  deletes := rfl
  collected := rfl

theorem Grows.trans {asked asked' : List TypeName} {r r' d d' c c' : Nat}
    (h : Grows e e' asked r d c) (h' : Grows e' e'' asked' r' d' c') :
    Grows e e'' (asked ++ asked') (r + r') (d + d') (c + c') where
  mem_trees type := by
    rw [h'.mem_trees, h.mem_trees, List.mem_append, or_and_right, or_assoc]
  once := h'.once ∘ h.once
  resolutions := by rw [h'.resolutions, h.resolutions, Nat.add_assoc]
  deletes := by rw [h'.deletes, h.deletes, Nat.add_assoc]
  collected := by rw [h'.collected, h.collected, Nat.add_assoc]

/-- A type without a tree is asked for in vain. -/
theorem grows_of_error {err : SyncError} (h : checkChangeable schema type = .error err) :
    Grows e e [type] 0 0 0 where
  mem_trees type' := by
    refine ⟨.inl, fun hmem => hmem.elim id fun ⟨hasked, hcheck⟩ => ?_⟩
    cases List.mem_singleton.mp hasked
    cases h.symm.trans hcheck
  once := id
  resolutions := rfl
  deletes := rfl
  collected := rfl

/-- The tree of a type is built when it is first asked for, and kept. -/
theorem grows_treeFor (hbound : mapping.documents.length ≤ schema.concretes.length)
    (h : e.Reliable mapping settings) (type : TypeName) :
    Grows e ((treeFor type).run.run e).2 [type] 0 0 0 := by
  unfold treeFor
  simp only [run_bind, run_get]
  cases hknown : e.trees[type]? with
  | some known =>
      refine { Grows.refl e with mem_trees := fun type' => ⟨.inl, fun hmem => ?_⟩ }
      refine hmem.elim id fun ⟨hasked, _⟩ => ?_
      show type' ∈ e.trees
      rw [List.mem_singleton.mp hasked, Std.ExtTreeMap.mem_iff_isSome_getElem?, hknown]
      rfl
  | none =>
      simp only [run_bind, run_liftExcept, run_get, run_set, run_pure]
      cases hcheck : checkChangeable schema type with
      | error err => exact grows_of_error hcheck
      | ok _ =>
          simp only [h.faithful.keepsMapping, h.faithful.keepsSettings]
          obtain ⟨tree, -, hbuild, -⟩ := ChangeTree.build_spec hbound settings.filtering type
          rw [hbuild]
          have hnew : e.trees.contains type = false := by
            rw [Std.ExtTreeMap.contains_eq_isSome_getElem?, hknown]
            rfl
          refine ⟨fun type' => ?_, fun hcount => ?_, rfl, rfl, rfl⟩
          · rw [Std.ExtTreeMap.mem_insert, List.mem_singleton, or_comm]
            refine or_congr_right ⟨fun heq => ?_, fun ⟨hasked, _⟩ => ?_⟩
            · cases Std.LawfulEqCmp.eq_of_compare heq
              exact ⟨rfl, hcheck⟩
            · rw [hasked]
              exact Std.ReflCmp.compare_self
          · show (e.trees.insert type tree).size = e.counters.trees + 1
            rw [Std.ExtTreeMap.size_insert, hnew, if_neg Bool.false_ne_true]
            exact congrArg (· + 1) hcount

theorem grows_walk (tree : ChangeTree) (store : ObjectStore schema) (dirty : Option OrdinalSet)
    (nodes : List NodeId) (object : ObjectId) :
    Grows e ((walk tree store dirty nodes object).run.run e).2 [] 0 0 0 := by
  obtain ⟨pruned, cut, hrun⟩ := run_walk tree store dirty nodes object e
  rw [hrun]
  exact { Grows.refl e with once := id }

/-- A resolution counts only if it is answered, and then with what it hands out; a type may
have got its tree in either case. -/
theorem grows_resolve (hbound : mapping.documents.length ≤ schema.concretes.length)
    (h : e.Reliable mapping settings) {nodes : ChangeTree → List NodeId}
    {dirty : ChangeTree → Option OrdinalSet} {count : Counters → Counters} {r d : Nat}
    (hcount : ∀ c, count c =
      { c with resolutions := c.resolutions + r, deletes := c.deletes + d }) :
    match (resolve store object nodes dirty count).run.run e with
    | (.ok found, e') => Grows e e' (store.runtimeType object).toOption.toList r d found.size
    | (.error _, e') => Grows e e' (store.runtimeType object).toOption.toList 0 0 0 := by
  unfold resolve
  rw [run_bind, run_runtimeType]
  cases htype : store.runtimeType object with
  | error err => exact Grows.refl e
  | ok type =>
      have hbuilt := grows_treeFor hbound h type
      simp only [Except.mapError, run_bind]
      cases hrun : (treeFor type).run.run e with
      | mk result e₁ =>
          rw [hrun] at hbuilt
          cases result with
          | error err => exact hbuilt
          | ok tree =>
              have hwalked := hbuilt.trans (grows_walk tree store (dirty tree) (nodes tree) object)
              simp only
              cases hwalk : (walk tree store (dirty tree) (nodes tree) object).run.run e₁ with
              | mk ending e₂ =>
                  rw [hwalk] at hwalked
                  cases ending with
                  | error err => exact hwalked
                  | ok found =>
                      simp only [run_modifyCounters, run_pure, hcount]
                      exact ⟨hwalked.mem_trees, hwalked.once,
                        congrArg (· + r) hwalked.resolutions,
                        congrArg (· + d) hwalked.deletes,
                        congrArg (· + found.size) hwalked.collected⟩

theorem grows_afterChange (hbound : mapping.documents.length ≤ schema.concretes.length)
    (h : e.Reliable mapping settings) (store : ObjectStore schema) (object : ObjectId)
    (dirty : Option DirtySet) :
    match (afterChange store object dirty).run.run e with
    | (.ok found, e') => Grows e e' (store.runtimeType object).toOption.toList 1 0 found.size
    | (.error _, e') => Grows e e' (store.runtimeType object).toOption.toList 0 0 0 :=
  grows_resolve hbound h fun _ => rfl

theorem grows_afterDelete (hbound : mapping.documents.length ≤ schema.concretes.length)
    (h : e.Reliable mapping settings) (store : ObjectStore schema) (object : ObjectId) :
    match (afterDelete store object).run.run e with
    | (.ok found, e') => Grows e e' (store.runtimeType object).toOption.toList 0 1 found.size
    | (.error _, e') => Grows e e' (store.runtimeType object).toOption.toList 0 0 0 :=
  grows_resolve hbound h fun _ => rfl

/-! ## What calls do -/

theorem run_reply {α : Type} (x : Request schema α) (f : α → Reply) (e : Engine schema) :
    (do return f (← x) : Request schema Reply).run.run e =
      ((x.run.run e).1.map f, (x.run.run e).2) := by
  rw [run_bind]
  rcases x.run.run e with ⟨err | a, e'⟩ <;> rfl

theorem answers_call (call : Call schema) :
    Answers mapping settings call.request (call.reply mapping settings) := by
  cases call with
  | change store object dirty =>
      exact (answers_afterChange store object dirty).bind fun found => .pure _
  | delete store object => exact (answers_afterDelete store object).bind fun found => .pure _
  | tree type => exact (answers_treeFor type).bind fun tree => .pure _
  | relevantPaths type =>
      show Answers mapping settings (relevantPaths type >>= _) _
      rw [relevantPaths, bind_assoc]
      exact (answers_treeFor type).bind fun tree => .pure _
  | explain type => exact (answers_treeFor type).bind fun tree => .pure _

theorem run_relevantPaths_eq (type : TypeName) (e : Engine schema) :
    (relevantPaths type).run.run e =
      (((treeFor type).run.run e).1.map (·.relevantPaths), ((treeFor type).run.run e).2) := by
  unfold relevantPaths
  rw [run_bind]
  rcases (treeFor type).run.run e with ⟨err | tree, e'⟩ <;> rfl

/-- One call and what it does to the engine. -/
theorem grows_call (hbound : mapping.documents.length ≤ schema.concretes.length)
    (h : e.Reliable mapping settings) (call : Call schema) :
    Grows e (call.request.run.run e).2 call.asked?.toList
      (if Call.isResolution (call, (call.request.run.run e).1) then 1 else 0)
      (if Call.isDelete (call, (call.request.run.run e).1) then 1 else 0)
      (Call.collected (call, (call.request.run.run e).1)) := by
  cases call with
  | change store object dirty =>
      have hgrows := grows_afterChange hbound h store object dirty
      rw [Call.request, run_reply]
      cases hrun : (afterChange store object dirty).run.run e with
      | mk result e' =>
          rw [hrun] at hgrows
          cases result <;> exact hgrows
  | delete store object =>
      have hgrows := grows_afterDelete hbound h store object
      rw [Call.request, run_reply]
      cases hrun : (afterDelete store object).run.run e with
      | mk result e' =>
          rw [hrun] at hgrows
          cases result <;> exact hgrows
  | tree type =>
      have hgrows := grows_treeFor hbound h type
      rw [Call.request, run_reply]
      cases hresult : ((treeFor type).run.run e).1 <;> exact hgrows
  | relevantPaths type =>
      have hgrows := grows_treeFor hbound h type
      rw [Call.request, run_reply, run_relevantPaths_eq]
      cases hresult : ((treeFor type).run.run e).1 <;> exact hgrows
  | explain type =>
      have hgrows := grows_treeFor hbound h type
      rw [Call.request, run_reply]
      cases hresult : ((treeFor type).run.run e).1 <;> exact hgrows

/-- What a list of calls does to an engine. -/
theorem grows_after (hbound : mapping.documents.length ≤ schema.concretes.length)
    (h : e.Reliable mapping settings) (calls : List (Call schema)) :
    Grows e (e.after calls) (calls.filterMap Call.asked?) ((e.log calls).countP Call.isResolution)
      ((e.log calls).countP Call.isDelete) ((e.log calls).map Call.collected).sum := by
  induction calls generalizing e with
  | nil => exact Grows.refl e
  | cons call rest ih =>
      have hnext := (grows_call hbound h call).trans (ih ((answers_call call).reliable h))
      rw [after, log, List.countP_cons, List.countP_cons, List.map_cons, List.sum_cons,
        Nat.add_comm (List.countP _ _), Nat.add_comm (List.countP _ _)]
      have hasked : (call :: rest).filterMap Call.asked? =
          call.asked?.toList ++ rest.filterMap Call.asked? := by
        cases hcall : call.asked? with
        | none => rw [List.filterMap_cons_none hcall]; rfl
        | some type => rw [List.filterMap_cons_some hcall]; rfl
      rw [hasked]
      exact hnext

/-- Every call comes back with the reply that mapping and settings call for. -/
theorem log_eq (h : e.Reliable mapping settings) (calls : List (Call schema)) :
    e.log calls = calls.map fun call => (call, call.reply mapping settings) := by
  induction calls generalizing e with
  | nil => rfl
  | cons call rest ih =>
      obtain ⟨e', hrun, h'⟩ := answers_call call e h
      rw [log, hrun, List.map_cons, ih h']

/-! ## Starting -/

/-- Building the trees of types that have one. -/
theorem exists_built (hbound : mapping.documents.length ≤ schema.concretes.length)
    (h : e.Reliable mapping settings) (types : List TypeName)
    (htypes : ∀ type ∈ types, checkChangeable schema type = .ok ()) :
    ∃ e', (types.forM fun type => discard (treeFor type) : Request schema Unit).run.run e =
      (.ok (), e') ∧ e'.Reliable mapping settings ∧ Grows e e' types 0 0 0 := by
  induction types generalizing e with
  | nil => exact ⟨e, rfl, h, Grows.refl e⟩
  | cons type types ih =>
      obtain ⟨hcheck, hrest⟩ := List.forall_mem_cons.mp htypes
      obtain ⟨tree, -, hbuild, -⟩ := ChangeTree.build_spec hbound settings.filtering type
      obtain ⟨e₁, hrun, h₁⟩ := answers_treeFor type e h
      have hgrows := grows_treeFor hbound h type
      rw [treeOf_eq_ok.mpr ⟨hcheck, hbuild⟩] at hrun
      rw [hrun] at hgrows
      obtain ⟨e', hrun', h', hgrows'⟩ := ih h₁ hrest
      refine ⟨e', ?_, h', hgrows.trans hgrows'⟩
      show (discard (treeFor type) >>= fun _ => types.forM fun type => discard (treeFor type) :
        Request schema Unit).run.run e = _
      rw [run_bind, run_discard, hrun]
      exact hrun'

/-- Every compiled mapping can be started, and has the trees of all types if all are built
at the start, and else of none. -/
theorem exists_start {ds : Declarations} (hcompile : Mapping.compile schema ds = .ok mapping)
    (hbound : mapping.documents.length ≤ schema.concretes.length) (settings : Settings) :
    ∃ e, Engine.start schema ds settings = .ok e ∧ e.Reliable mapping settings ∧
      Grows { mapping, settings, trees := ∅, counters := {} } e
        (if settings.eager then schema.concreteEntities else []) 0 0 0 := by
  simp only [Engine.start, hcompile, Except.mapError, Except.bind_eq_ok, Except.ok.injEq,
    exists_eq_left']
  cases settings.eager with
  | false => exact ⟨_, rfl, reliable_fresh, Grows.refl _⟩
  | true =>
      obtain ⟨e, hrun, h, hgrows⟩ := exists_built hbound reliable_fresh schema.concreteEntities
        fun type => checkChangeable_iff.mpr
      refine ⟨e, ?_, h, hgrows⟩
      rw [if_pos rfl]
      unfold Schema.concreteEntities fresh at hrun
      rw [hrun]
      rfl

/-- A fresh engine that has grown has one tree for each of the types asked for that has a
tree, and has built no other. -/
theorem treeCount_of_grows {asked : List TypeName} {r d c : Nat}
    (h : Grows { mapping, settings, trees := ∅, counters := {} } e asked r d c)
    (types : List TypeName) (hnodup : types.Nodup) (htypes : ∀ type, type ∈ types ↔
      type ∈ asked ∧ type ∈ schema.concreteEntities) :
    e.treeCount = e.counters.trees ∧ e.treeCount = types.length := by
  refine ⟨h.once rfl, ?_⟩
  have hkeys : e.trees.keys.Perm types := by
    rw [List.perm_ext_iff_of_nodup Std.ExtTreeMap.nodup_keys hnodup]
    intro type
    rw [Std.ExtTreeMap.mem_keys, h.mem_trees, htypes, checkChangeable_iff]
    simp
  rw [treeCount, ← Std.ExtTreeMap.length_keys]
  exact hkeys.length_eq

variable {defs : List TypeDef} {ds : Declarations}

/-- A compiled mapping can be started, and calls do not depend on those before: each comes
back with what a fresh engine replies, whether that has built its trees or not.  After any
calls the engine has built one tree for each concrete entity type asked for so far, or of
all at the start, and none twice; its other counters are the updates and the deletions it
has answered and the entities it has handed out. -/
theorem replies_afresh (hschema : Schema.ofDefinitions defs = .ok schema)
    (hcompile : Mapping.compile schema ds = .ok mapping) (settings : Settings) :
    ∃ e, Engine.start schema ds settings = .ok e ∧ ∀ calls : List (Call schema),
      (∀ eager, ∃ fresh, Engine.start schema ds { settings with eager } = .ok fresh ∧
        e.log calls = calls.map fun call => (call, (call.request.run.run fresh).1)) ∧
      (e.after calls).treeCount = (e.after calls).counters.trees ∧
      (e.after calls).treeCount = (if settings.eager then schema.concreteEntities
        else (calls.filterMap Call.asked?).dedup.filter (· ∈ schema.concreteEntities)).length ∧
      (e.after calls).counters.resolutions = (e.log calls).countP Call.isResolution ∧
      (e.after calls).counters.deletes = (e.log calls).countP Call.isDelete ∧
      (e.after calls).counters.collected = ((e.log calls).map Call.collected).sum := by
  have hbound := (Mapping.closed_of_compile (Schema.coherent_of_accepted hschema) hcompile).bounded
  obtain ⟨e, hstart, h, hgrows⟩ := exists_start hcompile hbound settings
  refine ⟨e, hstart, fun calls => ⟨fun eager => ?_, ?_⟩⟩
  · obtain ⟨fresh, hfresh, hreliable, -⟩ := exists_start hcompile hbound { settings with eager }
    refine ⟨fresh, hfresh, ?_⟩
    rw [log_eq h]
    refine List.map_congr_left fun call _ => ?_
    obtain ⟨_, hrun, -⟩ := answers_call call fresh hreliable
    rw [hrun]
    -- whether all trees are built at the start makes no difference to a reply
    cases call <;> rfl
  · have hall := hgrows.trans (grows_after hbound h calls)
    have hcount := treeCount_of_grows hall (if settings.eager then schema.concreteEntities
      else (calls.filterMap Call.asked?).dedup.filter (· ∈ schema.concreteEntities)) ?_ ?_
    · obtain ⟨honce, htrees⟩ := hcount
      exact ⟨honce, htrees, by simpa using hall.resolutions, by simpa using hall.deletes,
        by simpa using hall.collected⟩
    · split
      · exact ((Schema.typeNames_nodup hschema).filter _).filter _
      · exact (List.nodup_dedup _).filter _
    · intro type
      split
      · rw [List.mem_append]
        exact ⟨fun hmem => ⟨.inl hmem, hmem⟩, And.right⟩
      · simp [List.mem_filter]

end Engine

namespace Sample

/-- Calls with some that fail: of a type that is not declared, and for an object that is
not there. -/
def coupleCalls : List (Call coupleSchema) :=
  [.tree "Pet", .change couple 1 none, .change couple 1 (some newName), .change couple 3 none,
    .delete couple 2, .relevantPaths "Person", .explain "Person"]

end Sample

namespace Engine

theorem replies_afresh_couple :
    ∃ e, Engine.start Sample.coupleSchema Sample.spouses.mapping {} = .ok e ∧
      (∀ eager, ∃ fresh,
        Engine.start Sample.coupleSchema Sample.spouses.mapping { eager } = .ok fresh ∧
        e.log Sample.coupleCalls = Sample.coupleCalls.map fun call =>
          (call, (call.request.run.run fresh).1)) ∧
      (e.after Sample.coupleCalls).treeCount = 1 ∧
      (e.after Sample.coupleCalls).counters.resolutions = 2 ∧
      (e.after Sample.coupleCalls).counters.deletes = 1 ∧
      (e.after Sample.coupleCalls).counters.collected = 6 := by
  obtain ⟨e, hstart, hcalls⟩ := replies_afresh (Except.eq_ok_value _) Sample.compile_couple {}
  obtain ⟨hfresh, -, htrees, hresolutions, hdeletes, hcollected⟩ := hcalls Sample.coupleCalls
  obtain rfl : Sample.coupleEngine = e :=
    Except.ok.inj ((Except.eq_ok_value _).symm.trans hstart)
  refine ⟨_, hstart, hfresh, htrees.trans ?_, hresolutions.trans ?_, hdeletes.trans ?_,
    hcollected.trans ?_⟩ <;> decide +kernel

end Engine

end IndexSync
