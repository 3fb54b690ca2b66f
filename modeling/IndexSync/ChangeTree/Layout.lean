import IndexSync.Mapping.Compile
import IndexSync.ChangeTree.Arena
import IndexSync.ChangeTree.Trie

/-!
# Building a tree

One tree per concrete type, made from the triggers that apply to it.

- `layTrie`, `layBranches` — lay merged sequences of moves out in the arena,
  ends first, with a filter wherever fewer paths matter than above.
- `layPart` — the document part of a concrete type: index it again if it is
  indexed, and go on to whatever embeds it.  Each part is laid out once and
  shared from then on, also by itself.
- `ChangeTree.build` — the whole tree.
-/

namespace IndexSync

/-- The arena so far, and the parts laid out or given up. -/
structure Layout where
  arena : Arena
  parts : SortedMap TypeName (Option NodeId)

namespace Layout

def empty : Layout := { arena := .empty, parts := ∅ }

end Layout

/-- Where filters belong. -/
inductive FilterRule where
  /-- Nowhere: below a document part, or when filters are turned off. -/
  | never
  /-- Everywhere, as nothing above has filtered yet. -/
  | always
  /-- Where fewer paths matter than the enclosing ones. -/
  | below (enclosing : OrdinalSet)

/-- The rule inside a branch. -/
def FilterRule.inside (r : FilterRule) (relevance : OrdinalSet) : FilterRule :=
  match r with
  | never => never
  | _ => below relevance

/-- Whether a filter belongs in front of something only `relevance` matters
to. -/
def FilterRule.narrows (r : FilterRule) (relevance : OrdinalSet) : Bool :=
  match r with
  | never => false
  | always => true
  | below enclosing => !enclosing.subset relevance

/-! ## Single nodes -/

def pushNode (node : Node) : StateM Layout NodeId :=
  modifyGet fun l => let (id, arena) := l.arena.push node; (id, { l with arena })

def replaceNode (id : NodeId) (node : Node) : StateM Layout Unit :=
  modify fun l => { l with arena := l.arena.replace id node }

def rememberPart (type : TypeName) (part : Option NodeId) : StateM Layout Unit :=
  modify fun l => { l with parts := l.parts.insert type part }

/-- The node itself, if there is any, behind a filter where one belongs. -/
def layFiltered (rule : FilterRule) (relevance : OrdinalSet) :
    Option NodeId → StateM Layout (Option NodeId)
  | none => pure none
  | some id => do
    if rule.narrows relevance then return some (← pushNode (.ifDirty relevance id))
    else return some id

/-- One node that stands for several; none for none. -/
def layJoined : List NodeId → StateM Layout (Option NodeId)
  | [] => pure none
  | [id] => pure (some id)
  | ids => return some (← pushNode (.union ids))

/-- A node in front of another one, if there is any. -/
def layBefore (node : NodeId → Node) : Option NodeId → StateM Layout (Option NodeId)
  | none => pure none
  | some nested => return some (← pushNode (node nested))

/-- The document part of an object itself, where sequences have ended. -/
def layOwn (part : TypeName → StateM Layout (Option NodeId)) (rule : FilterRule)
    (concrete : TypeName) : Option OrdinalSet → StateM Layout (Option NodeId)
  | none => pure none
  | some relevance => do layFiltered rule relevance (← part concrete)

/-- The dispatch with the entry of a type, if there is any. -/
def withEntry (dispatch : SortedMap TypeName NodeId) (concrete : TypeName) :
    Option NodeId → SortedMap TypeName NodeId
  | none => dispatch
  | some id => dispatch.insert concrete id

/-- The dispatch over the concrete types of a landing.  The object's own document
part comes before the continuation. -/
def layDispatch (part : TypeName → StateM Layout (Option NodeId)) (rule : FilterRule)
    (ended : Option OrdinalSet) (continuation : Option NodeId) :
    SortedMap TypeName NodeId → List TypeName → StateM Layout (SortedMap TypeName NodeId)
  | dispatch, [] => pure dispatch
  | dispatch, concrete :: rest => do
    let own ← layOwn part rule concrete ended
    let entry ← layJoined (own.toList ++ continuation.toList)
    layDispatch part rule ended continuation (withEntry dispatch concrete entry) rest

/-- A landing, unless no concrete type has anything to do there. -/
def layLanding (part : TypeName → StateM Layout (Option NodeId)) (rule : FilterRule)
    (static : TypeName) (concretes : List TypeName) (ended : Option OrdinalSet)
    (continuation : Option NodeId) : StateM Layout (Option NodeId) := do
  let dispatch ← layDispatch part rule ended continuation ∅ concretes
  if dispatch.isEmpty then return none
  else return some (← pushNode (.type static dispatch))

/-! ## Merged sequences -/

section

variable (m : Schema) (part : TypeName → StateM Layout (Option NodeId))

mutual

/-- What follows the move of one branch, behind that move. -/
def layBranch (rule : FilterRule) (move : Move) : Trie → StateM Layout (Option NodeId)
  | .fork ended branches => do
    let continuation ← layJoined (← layBranches rule branches)
    match move with
    | .read name => layBefore (.property name) continuation
    | .extract e => layBefore (.extract e) continuation
    | .cast target => layBefore (.cast target) continuation
    | .land type => layLanding part rule type (m.concretesUnder type) ended continuation

/-- The branches that lead anywhere, in order. -/
def layBranches (rule : FilterRule) : List (Move × OrdinalSet × Trie) → StateM Layout (List NodeId)
  | [] => pure []
  | (move, relevance, next) :: rest => do
    let here ← layFiltered rule relevance (← layBranch (rule.inside relevance) move next)
    return here.toList ++ (← layBranches rule rest)

end

end

/-- A tree for objects of static type `static` among `concretes`. -/
def layTrie (m : Schema) (part : TypeName → StateM Layout (Option NodeId)) (rule : FilterRule)
    (static : TypeName) (concretes : List TypeName) (trie : Trie) :
    StateM Layout (Option NodeId) := do
  let continuation ← layJoined (← layBranches m part rule trie.branches)
  layLanding part rule static concretes trie.ended continuation

/-! ## Document parts -/

variable {schema : Schema}

/-- The moves that lead from an object of a concrete type to the entities that
embed it, edge by edge. -/
def Mapping.embeddingMoves (mapping : Mapping schema) (concrete : TypeName) : List (List Move) :=
  (mapping.embeddings.filter fun e => schema.fits concrete e.target).map (·.moves)

/-- The mark of an indexed type. -/
def layMark (indexed : Bool) : StateM Layout (List NodeId) := do
  if indexed then return [← pushNode .reindex] else return []

/-- The document part of a concrete type.  Parts that are being laid out are
known by their place already, so parts nest at most as deep as there are
concrete types; the first argument bounds that depth. -/
def layPart (mapping : Mapping schema) : Nat → TypeName → StateM Layout (Option NodeId)
  | 0, _ => pure none
  | depth + 1, concrete => do
    match (← get).parts[concrete]? with
    | some known => return known
    | none =>
      if !mapping.hasPart concrete then
        rememberPart concrete none
        return none
      else
        let place ← pushNode .pending
        -- known before anything below it, which may lead back to this part
        rememberPart concrete (some place)
        let mark ← layMark (mapping.isIndexed concrete)
        let trie := Trie.ofSequences <| (mapping.embeddingMoves concrete).map fun moves =>
          (moves, .empty)
        let ends ← layBranches schema (layPart mapping depth) .never trie.branches
        let embedding ← layJoined ends
        replaceNode place (.union (mark ++ embedding.toList))
        return some place

/-! ## Whole trees -/

/-- The tree for changes of objects of one concrete type. -/
structure ChangeTree where
  type : TypeName
  arena : Arena
  /-- Where updates start; nowhere if no change of the type matters. -/
  root : Option NodeId
  /-- The document part of the object itself, walked too when it is deleted. -/
  ownPart : Option NodeId
  table : PathTable
deriving DecidableEq

namespace ChangeTree

/-- The numbered dirty paths and the moves of the triggers that apply to objects
of a concrete type. -/
def sequences (mapping : Mapping schema) (type : TypeName) :
    PathTable × List (List Move × OrdinalSet) :=
  (mapping.triggers.filter fun t => schema.fits type t.changed).foldl
    (fun (table, found) t =>
      let (n, table) := table.number t.dirty
      (table, found ++ [(t.moves, .single n)]))
    (.empty, [])

/-- Lays out where updates start, and the type's own document part. -/
def lay (mapping : Mapping schema) (filtering : Bool) (type : TypeName) :
    StateM Layout (Option NodeId × Option NodeId) := do
  let part := layPart mapping (schema.concretes.length + 2)
  let rule := if filtering then FilterRule.always else .never
  let trie := Trie.ofSequences (sequences mapping type).2
  let root ← layTrie schema part rule type [type] trie
  return (root, ← part type)

/-- The tree for objects of a concrete type, with or without filters. -/
def build (mapping : Mapping schema) (filtering : Bool) (type : TypeName) :
    Except SyncError ChangeTree :=
  let ((root, ownPart), layout) := (lay mapping filtering type).run .empty
  if layout.arena.hasPending then .error (.invariant (.forwardReference type))
  else .ok { type, arena := layout.arena, root, ownPart, table := (sequences mapping type).1 }

/-- The paths whose change can matter, by ordinal. -/
def relevantPaths (t : ChangeTree) : List String := t.table.paths

/-- No change and no deletion of an object of the type matters. -/
def isEmpty (t : ChangeTree) : Bool := t.root.isNone && t.ownPart.isNone

end ChangeTree

end IndexSync
