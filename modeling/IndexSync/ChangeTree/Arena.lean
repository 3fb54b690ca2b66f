import IndexSync.Mapping.Error
import IndexSync.Dirty.PathTable
import IndexSync.ChangeTree.Findings

/-!
# Arenas of nodes

A compiled tree is an arena of nodes that refer to one another by place.
Continuations are shared and may lead back, so the nodes form a graph; the only
nodes that a walk may come back to on every cycle are `type` nodes.

- `Node.children` — the nodes that a node refers to; `Node.onward` — those of
  them that a walk goes on with at once.
- `Arena.push`, `Arena.replace` — a place given out early is filled in later.
-/

namespace IndexSync

inductive Node where
  /-- Goes on by the runtime type of the object; a type without an entry
  contributes nothing. -/
  | type (static : TypeName) (dispatch : SortedMap TypeName NodeId)
  /-- Goes on with objects that fit `target` only. -/
  | cast (target : TypeName) (nested : NodeId)
  /-- Reads a property and goes on with its value, unless that is null. -/
  | property (name : String) (nested : NodeId)
  /-- Goes on with each element of a container that is not null. -/
  | extract (e : Extractor) (nested : NodeId)
  /-- Applies several nodes to the same place. -/
  | union (children : List NodeId)
  /-- Goes on only if one of the paths may be dirty. -/
  | ifDirty (relevant : OrdinalSet) (nested : NodeId)
  /-- The entity reached is to be indexed again. -/
  | reindex
  /-- A place not filled in yet. -/
  | pending
deriving DecidableEq, Inhabited

namespace Node

def isPending : Node → Bool
  | pending => true
  | _ => false

/-- Every node referred to, in order. -/
def children : Node → List NodeId
  | type _ dispatch => dispatch.contents
  | cast _ nested | property _ nested | extract _ nested | ifDirty _ nested => [nested]
  | union children => children
  | reindex | pending => []

/-- The nodes that a walk goes on with at once, without an object that it has to
meet first. -/
def onward : Node → List NodeId
  | property _ nested | extract _ nested | ifDirty _ nested => [nested]
  | union children => children
  | type _ _ | cast _ _ | reindex | pending => []

theorem onward_subset_children (node : Node) : node.onward ⊆ node.children := by
  cases node <;> first | exact List.Subset.refl _ | exact List.nil_subset _

end Node

structure Arena where
  nodes : Array Node
deriving DecidableEq, Inhabited

namespace Arena

def empty : Arena := ⟨#[]⟩

def size (a : Arena) : Nat := a.nodes.size

def isEmpty (a : Arena) : Bool := a.nodes.isEmpty

def get? (a : Arena) (id : NodeId) : Option Node := a.nodes[id]?

def push (a : Arena) (node : Node) : NodeId × Arena := (a.nodes.size, ⟨a.nodes.push node⟩)

def replace (a : Arena) (id : NodeId) (node : Node) : Arena := ⟨a.nodes.setIfInBounds id node⟩

def hasPending (a : Arena) : Bool := a.nodes.any Node.isPending

/-! ## Look-ups -/

theorem lt_size_of_get? {a : Arena} {id : NodeId} {node : Node} (h : a.get? id = some node) :
    id < a.size :=
  (Array.getElem?_eq_some_iff.mp h).1

theorem get?_push_self (a : Arena) (node : Node) : (a.push node).2.get? a.size = some node :=
  Array.getElem?_push_size

theorem get?_push_of_lt {a : Arena} {id : NodeId} (h : id < a.size) (node : Node) :
    (a.push node).2.get? id = a.get? id := by
  show (a.nodes.push node)[id]? = a.nodes[id]?
  rw [Array.getElem?_push, if_neg]
  exact Nat.ne_of_lt h

theorem size_push (a : Arena) (node : Node) : (a.push node).2.size = a.size + 1 :=
  Array.size_push node

theorem get?_replace_self {a : Arena} {id : NodeId} (h : id < a.size) (node : Node) :
    (a.replace id node).get? id = some node :=
  Array.getElem?_setIfInBounds_self_of_lt h

theorem get?_replace_of_ne {a : Arena} {id other : NodeId} (h : id ≠ other) (node : Node) :
    (a.replace id node).get? other = a.get? other :=
  Array.getElem?_setIfInBounds_ne h

theorem size_replace (a : Arena) (id : NodeId) (node : Node) : (a.replace id node).size = a.size :=
  Array.size_setIfInBounds

end Arena

end IndexSync
