import IndexSync.ChangeTree.Layout

/-!
# Explaining a tree

The text of a tree, one line per node, nested by two spaces.  `type` and
`union` nodes are told with their place at first sight, and after that only
pointed at, which is what keeps the text of a cyclic tree finite.
-/

namespace IndexSync

namespace Arena

/-- The dirty paths of a filter; without names, their ordinals. -/
def renderRelevant (table : Option PathTable) (relevant : OrdinalSet) : String :=
  ", ".intercalate (relevant.toList.map fun n =>
    ((table.bind (·.paths[n]?)).getD ("#" ++ toString n)))

/-- A line below `level` enclosing ones. -/
def line (level : Nat) (text : String) : String :=
  String.join (List.replicate level "  ") ++ text ++ "\n"

/-- The lines of a node and of everything below it that is not among `seen`,
and what has been seen afterwards.  The first argument bounds how deep nodes
nest. -/
def explainFrom (a : Arena) (table : Option PathTable) :
    Nat → (level : Nat) → (seen : List NodeId) → NodeId → List String × List NodeId
  | 0, _, seen, _ => ([], seen)
  | depth + 1, level, seen, id =>
    let below (text : String) (nested : NodeId) : List String × List NodeId :=
      let (lines, seen) := a.explainFrom table depth (level + 1) seen nested
      (line level text :: lines, seen)
    match a.get? id with
    | none => ([line level ("<dangling " ++ nodeLabel id ++ ">")], seen)
    | some (.type static dispatch) =>
      if id ∈ seen then ([line level ("type " ++ static ++ " (see " ++ nodeLabel id ++ ")")], seen)
      else
        dispatch.toList.foldl
          (fun (lines, seen) (concrete, nested) =>
            let (more, seen) := a.explainFrom table depth (level + 2) seen nested
            (lines ++ line (level + 1) ("when " ++ concrete ++ ":") :: more, seen))
          ([line level ("type " ++ static ++ " [" ++ nodeLabel id ++ "]")], id :: seen)
    | some (.cast target nested) => below ("cast to " ++ target) nested
    | some (.property name nested) => below ("property " ++ name) nested
    | some (.extract e nested) => below ("extract [" ++ e.word ++ "]") nested
    | some (.union children) =>
      if id ∈ seen then ([line level ("union (see " ++ nodeLabel id ++ ")")], seen)
      else
        children.foldl
          (fun (lines, seen) nested =>
            let (more, seen) := a.explainFrom table depth (level + 1) seen nested
            (lines ++ more, seen))
          ([line level ("union [" ++ nodeLabel id ++ "]")], id :: seen)
    | some (.ifDirty relevant nested) =>
      below ("if dirty: " ++ renderRelevant table relevant) nested
    | some .reindex => ([line level "reindex"], seen)
    | some .pending => ([line level ("<placeholder " ++ nodeLabel id ++ ">")], seen)

/-- The text of the tree below a node.  Nodes nest across the `type` and `union`
nodes, each of them once, and between two of these across each node once. -/
def explain (a : Arena) (table : Option PathTable) (id : NodeId) : String :=
  String.join (a.explainFrom table ((a.size + 1) * (a.size + 1)) 0 [] id).1

end Arena

namespace ChangeTree

/-- The text of a whole tree. -/
def explain (t : ChangeTree) : String :=
  "resolver for " ++ t.type ++ "\n" ++
  (if t.table.paths.isEmpty then ""
    else "relevant paths: " ++ ", ".intercalate t.table.paths ++ "\n") ++
  (match t.root with
    | some root => "on update:\n" ++ t.arena.explain (some t.table) root
    | none => "on update: nothing\n") ++
  (match t.ownPart with
    | some part => "on delete, additionally:\n" ++ t.arena.explain (some t.table) part
    | none => "")

end ChangeTree

end IndexSync
