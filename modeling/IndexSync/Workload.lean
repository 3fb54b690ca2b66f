import IndexSync.Engine

/-!
# Workloads

Many updates of the same objects, answered by one engine, and a count of what
came of them.

- `inTurn`, `shared` — which object is updated when, by one worker or by
  several.
- `Tally.run` — answers all of them.  The counts do not depend on the order, so
  workers may as well go one after another.
-/

namespace IndexSync

namespace Workload

/-- The object at a turn, going round and round. -/
def atTurn? (objects : List ObjectId) (turn : Nat) : Option ObjectId :=
  objects[turn % objects.length]?

/-- The updates of one worker that begins at some turn; none without objects. -/
def inTurn (objects : List ObjectId) (first operations : Nat) : List ObjectId :=
  if objects.isEmpty then []
  else (List.range operations).filterMap fun i => atTurn? objects (first + i)

/-- The updates of several workers with equal shares, each of which begins one
turn later than the one before. -/
def shared (objects : List ObjectId) (operations workers : Nat) : List ObjectId :=
  (List.range (max workers 1)).flatMap fun w =>
    inTurn objects w (operations / max workers 1)

end Workload

/-- What came of many updates. -/
structure Tally where
  succeeded : Nat := 0
  failed : Nat := 0
  /-- Entities to be indexed again, over all updates. -/
  entities : Nat := 0
deriving DecidableEq, Inhabited

namespace Tally

def total (t : Tally) : Nat := t.succeeded + t.failed

variable {schema : Schema}

/-- Answers one more update. -/
def count (store : ObjectStore schema) (dirty : Option DirtySet) (t : Tally) (object : ObjectId) :
    StateM (Engine schema) Tally := do
  match ← (Engine.afterChange store object dirty).run with
  | .ok found => return { t with succeeded := t.succeeded + 1, entities := t.entities + found.size }
  | .error _ => return { t with failed := t.failed + 1 }

/-- Answers an update of every object listed. -/
def run (store : ObjectStore schema) (dirty : Option DirtySet) (objects : List ObjectId) :
    StateM (Engine schema) Tally :=
  objects.foldlM (count store dirty) {}

end Tally

end IndexSync
