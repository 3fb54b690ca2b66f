import IndexSync.ChangeTree.Walk
import IndexSync.ChangeTree.Layout

/-!
# The engine

An engine holds a compiled mapping and the trees built from it so far, and
counts what it does.  A tree is built when the first request needs it, at most
once per concrete entity type.

- `Engine.start` — compiles the declarations.
- `Engine.afterChange`, `Engine.afterDelete` — the entities to be indexed again
  after a change or a deletion of an object.

A request may fail and still have built trees and counted steps, so it is a
state transition with an error (`Request`).
-/

namespace IndexSync

structure Settings where
  /-- Whether trees have dirtiness filters. -/
  filtering : Bool := true
  /-- Whether all trees are built at the start. -/
  eager : Bool := false
deriving DecidableEq, Inhabited

/-- Counters, which only grow. -/
structure Counters where
  /-- Updates answered. -/
  resolutions : Nat := 0
  /-- Deletions answered. -/
  deletes : Nat := 0
  /-- Entities handed out. -/
  collected : Nat := 0
  /-- Times that a filter kept a walk out. -/
  pruned : Nat := 0
  /-- Times that a walk met a pair again. -/
  cut : Nat := 0
  /-- Trees built. -/
  trees : Nat := 0
deriving DecidableEq, Inhabited

structure Engine (schema : Schema) where
  mapping : Mapping schema
  settings : Settings
  trees : SortedMap TypeName ChangeTree
  counters : Counters

/-- A request to an engine. -/
abbrev Request (schema : Schema) := ExceptT SyncError (StateM (Engine schema))

namespace Engine

variable {schema : Schema}

/-- How many trees have been built. -/
def treeCount (e : Engine schema) : Nat := e.trees.size

/-- Indexed types by name. -/
def indexedSorted (e : Engine schema) : List TypeName :=
  (Std.ExtTreeSet.ofList e.mapping.indexed).toList

def modifyCounters (f : Counters → Counters) : Request schema Unit :=
  modify fun e => { e with counters := f e.counters }

/-- Only a concrete entity type has a tree. -/
def checkChangeable (schema : Schema) (type : TypeName) : Except SyncError Unit :=
  match schema.definition? type with
  | none => .error (.mapping (.unknownType type))
  | some d =>
    if d.isAbstract then .error (.data (.abstractType type))
    else if !d.isEntity then .error (.mapping (.notAnEntity type .changed))
    else .ok ()

/-- The tree of a type, built on first use. -/
def treeFor (type : TypeName) : Request schema ChangeTree := do
  match (← get).trees[type]? with
  | some known => return known
  | none =>
    liftExcept (checkChangeable schema type)
    let engine ← get
    let built ← liftExcept (ChangeTree.build engine.mapping engine.settings.filtering type)
    set { engine with
      trees := engine.trees.insert type built
      counters := { engine.counters with trees := engine.counters.trees + 1 } }
    return built
where
  liftExcept {α : Type} : Except SyncError α → Request schema α
    | .ok a => pure a
    | .error e => throw e

/-- Walks the given nodes of a tree and counts the walk. -/
def walk (tree : ChangeTree) (store : ObjectStore schema) (dirty : Option OrdinalSet)
    (nodes : List NodeId) (object : ObjectId) : Request schema EntitySet := do
  let w : Walk schema := { arena := tree.arena, store, dirty }
  let (ending, s) := w.run nodes object
  modifyCounters fun counters =>
    { counters with pruned := counters.pruned + s.pruned, cut := counters.cut + s.cut }
  match ending with
  | .finished => return s.findings.entities
  | .failed e => throw e
  | .exhausted => throw (.invariant .endless)

/-- The runtime type of a live object, as a request. -/
def runtimeType (store : ObjectStore schema) (object : ObjectId) : Request schema TypeName :=
  match store.runtimeType object with
  | .ok type => pure type
  | .error e => throw (.data e)

/-- The entities found from the given nodes of an object's tree; `count` counts the
request. -/
def resolve (store : ObjectStore schema) (object : ObjectId) (nodes : ChangeTree → List NodeId)
    (dirty : ChangeTree → Option OrdinalSet) (count : Counters → Counters) :
    Request schema EntitySet := do
  let tree ← treeFor (← runtimeType store object)
  let found ← walk tree store (dirty tree) (nodes tree) object
  modifyCounters fun counters =>
    { count counters with collected := counters.collected + found.size }
  return found

/-- The entities to be indexed again after a change of an object.  Without
`dirty` every path may have changed. -/
def afterChange (store : ObjectStore schema) (object : ObjectId) (dirty : Option DirtySet) :
    Request schema EntitySet :=
  resolve store object (fun tree => tree.root.toList) (fun tree => dirty.map tree.table.hitBy)
    fun counters => { counters with resolutions := counters.resolutions + 1 }

/-- The entities to be indexed again after an object is deleted, which must
still be readable.  Every path counts as changed, and the object's own document
part is gone. -/
def afterDelete (store : ObjectStore schema) (object : ObjectId) : Request schema EntitySet :=
  resolve store object (fun tree => tree.root.toList ++ tree.ownPart.toList) (fun _ => none)
    fun counters => { counters with deletes := counters.deletes + 1 }

/-- The paths whose change can matter to some document. -/
def relevantPaths (type : TypeName) : Request schema (List String) :=
  return (← treeFor type).relevantPaths

/-- Compiles the declarations over a schema; eager settings build all trees. -/
def start (schema : Schema) (ds : Declarations) (settings : Settings) :
    Except SyncError (Engine schema) := do
  let mapping ← (Mapping.compile schema ds).mapError .mapping
  let fresh : Engine schema := { mapping, settings, trees := ∅, counters := {} }
  if settings.eager then
    let build : Request schema Unit :=
      (schema.concretes.filter schema.isEntity).forM fun type => discard (treeFor type)
    match build.run.run fresh with
    | (.ok _, built) => return built
    | (.error e, _) => throw e
  else return fresh

/-- The one-line form of an engine. -/
def render (e : Engine schema) : String :=
  "ResolverRegistry \x7b indexed: [" ++ ", ".intercalate e.indexedSorted ++ "], built: " ++
    toString e.treeCount ++ ", config: ResolverConfig \x7b dirtiness_filtering: " ++
    toString e.settings.filtering ++ ", eager_build: " ++ toString e.settings.eager ++ " \x7d \x7d"

end Engine

end IndexSync
