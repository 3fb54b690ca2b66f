import IndexSync.EntityRef

/-!
# Findings

What one walk has found so far: the entities to be indexed again, and which
nodes it has been at with which objects.
-/

namespace IndexSync

/-- Nodes are places in an arena. -/
abbrev NodeId := Nat

/-- A node that a walk has been at with an object. -/
structure Meeting where
  node : NodeId
  object : ObjectId
deriving DecidableEq

namespace Meeting

/-- By node, then by object. -/
protected def compare : Meeting → Meeting → Ordering :=
  compareLex (compareOn node) (compareOn object)

instance : Ord Meeting := ⟨Meeting.compare⟩

instance : Std.TransOrd Meeting :=
  inferInstanceAs (Std.TransCmp (compareLex (compareOn node) (compareOn object)))

instance : Std.LawfulEqOrd Meeting where
  compare_self := Std.ReflCmp.compare_self
  eq_of_compare {a b} h := by
    replace h : (compare a.node b.node).then (compare a.object b.object) = .eq := h
    rw [Ordering.then_eq_eq] at h
    cases a
    cases b
    cases Std.LawfulEqCmp.eq_of_compare h.1
    cases Std.LawfulEqCmp.eq_of_compare h.2
    rfl

end Meeting

structure Findings where
  entities : EntitySet
  met : SortedSet Meeting

namespace Findings

def empty : Findings := { entities := ∅, met := ∅ }

/-- Adds an entity; tells whether it is new. -/
def add (f : Findings) (r : EntityRef) : Bool × Findings :=
  (!f.entities.contains r, { f with entities := f.entities.insert r })

def hasMet (f : Findings) (node : NodeId) (object : ObjectId) : Bool :=
  f.met.contains { node, object }

/-- Enters a node with an object; tells whether that is new. -/
def meet (f : Findings) (node : NodeId) (object : ObjectId) : Bool × Findings :=
  if f.hasMet node object then (false, f)
  else (true, { f with met := f.met.insert { node, object } })

end Findings

end IndexSync
