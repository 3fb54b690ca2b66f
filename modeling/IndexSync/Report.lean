import IndexSync.File.Read
import IndexSync.ChangeTree.Text

/-!
# Reports on files

The answers to the three questions that can be asked about a mapping file:

- `summarize` — is the mapping valid, and what does it compile to?
- `explainTexts` — how do its trees look?
- `reportChange` — which entities does a change in an object file concern?

Each report can be written as text and as JSON.
-/

namespace IndexSync

/-- Answers a request. -/
def ask {schema : Schema} (engine : Engine schema) (request : Request schema α) :
    Except FileError (α × Engine schema) :=
  match request.run.run engine with
  | (.ok a, engine) => .ok (a, engine)
  | (.error e, _) => .error (.sync e)

/-- An engine over checked types and declarations. -/
def CheckedMapping.engine (m : CheckedMapping) (settings : Settings) :
    Except FileError (Engine m.schema) :=
  (Engine.start m.schema m.declarations settings).mapError .sync

/-- The concrete entity types, each of which has a tree. -/
def Schema.concreteEntities (m : Schema) : List TypeName :=
  m.concretes.filter m.isEntity

/-! ## Checking -/

structure TreeSummary where
  type : TypeName
  nodes : Nat
  relevantPaths : List String

structure MappingSummary where
  path : String
  types : Nat
  indexed : List TypeName
  triggers : Nat
  embeddings : Nat
  trees : List TreeSummary

/-- Builds every tree of a mapping file and sums up what was built. -/
def summarize (path : String) (text : Option String) : Except FileError MappingSummary := do
  let m ← readMapping text
  let engine ← m.engine { eager := true }
  let (trees, engine) ← ask engine do
    m.schema.concreteEntities.mapM fun type => do
      let tree ← Engine.treeFor type
      return { type, nodes := tree.arena.size, relevantPaths := tree.relevantPaths : TreeSummary }
  return { path, types := m.schema.size, indexed := engine.indexedSorted
           triggers := engine.mapping.triggers.length
           embeddings := engine.mapping.embeddings.length, trees }

def TreeSummary.toJson (s : TreeSummary) : Json :=
  .object [("type", .string s.type), ("nodes", .nat s.nodes),
    ("relevant_paths", .strings s.relevantPaths)]

def TreeSummary.render (s : TreeSummary) : String :=
  "  " ++ s.type ++ " (" ++ toString s.nodes ++ " nodes): " ++
    (if s.relevantPaths.isEmpty then "no relevant paths" else ", ".intercalate s.relevantPaths)

namespace MappingSummary

def toJson (r : MappingSummary) : Json :=
  .object [("path", .string r.path), ("types", .nat r.types), ("indexed", .strings r.indexed),
    ("triggers", .nat r.triggers), ("edges", .nat r.embeddings),
    ("resolvers", .array (r.trees.map (·.toJson)))]

def lines (r : MappingSummary) : List String :=
  ["Mapping OK: " ++ r.path,
    "",
    "Types:           " ++ toString r.types,
    "Indexed types:   " ++ ", ".intercalate r.indexed,
    "Triggers:        " ++ toString r.triggers,
    "Embedding edges: " ++ toString r.embeddings,
    "",
    "Resolvers:"] ++ r.trees.map (·.render)

end MappingSummary

/-! ## Explaining -/

/-- The text of the tree of one type, or of every concrete entity type. -/
def explainTexts (text : Option String) (type : Option TypeName) (filtering : Bool) :
    Except FileError (List String) := do
  let m ← readMapping text
  let engine ← m.engine { filtering }
  let types := (type.map fun t => [t]).getD m.schema.concreteEntities
  let (texts, _) ← ask engine (types.mapM fun type => do
    return (← Engine.treeFor type).explain)
  return texts

/-! ## Changes -/

/-- What has changed. -/
structure ChangeRequest where
  object : ObjectId
  /-- The changed paths; none given, any may have changed. -/
  dirty : List String
  delete : Bool

structure ChangeReport where
  type : TypeName
  object : ObjectId
  delete : Bool
  dirty : Option (List String)
  entities : List EntityRef

/-- Loads both files and works out the entities to be indexed again. -/
def reportChange (mapping graph : Option String) (change : ChangeRequest) :
    Except FileError ChangeReport := do
  let m ← readMapping mapping
  let store ← readObjects m.schema graph
  let engine ← m.engine {}
  match store.runtimeType change.object with
  | .error e => .error (.data e)
  | .ok type =>
    let dirty := if change.dirty.isEmpty then none else some (.ofList change.dirty)
    let (found, _) ← ask engine
      (if change.delete then Engine.afterDelete store change.object
        else Engine.afterChange store change.object dirty)
    return { type, object := change.object, delete := change.delete
             dirty := dirty.map (·.toList), entities := found.toList }

namespace ChangeReport

def toJson (r : ChangeReport) : Json :=
  .object ([("type", .string r.type), ("object", .nat r.object), ("delete", .bool r.delete)] ++
    (match r.dirty with
      | some paths => [("dirty", .strings paths)]
      | none => []) ++
    [("entities", .array (r.entities.map fun e =>
      .object [("type", .string e.type), ("id", .string e.identity.render)]))])

def lines (r : ChangeReport) : List String :=
  [r.type ++ "(" ++ ObjectId.text r.object ++ ") " ++
      (if r.delete then "deleted" else "updated")] ++
    (match r.dirty with
      | some paths => ["Dirty paths: " ++ ", ".intercalate paths]
      | none => []) ++
    [toString r.entities.length ++ " entities to reindex"] ++
    r.entities.map fun e => "  " ++ e.render

end ChangeReport

end IndexSync
