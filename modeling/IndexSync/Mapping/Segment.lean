import IndexSync.Mapping.Inverse
import IndexSync.Mapping.Trigger

/-!
# Paths cut at entities

A declared path may lead through several entities.  It is cut into segments at
every entity it crosses: a change inside a segment happens to the segment's
owner, and a change of the association at its end may also be reported by the
far side.  From either of them the backlinks collected so far lead on.

- `cut` — the segments of a path.
- `segments` — the triggers of one path, and the way back from its end.
-/

namespace IndexSync

/-- Triggers and edges, in the order in which declarations give rise to them. -/
structure Facts where
  triggers : List Trigger
  embeddings : List Embedding
deriving DecidableEq, Inhabited

namespace Facts

def empty : Facts := { triggers := [], embeddings := [] }

def append (a b : Facts) : Facts :=
  { triggers := a.triggers ++ b.triggers, embeddings := a.embeddings ++ b.embeddings }

instance : Append Facts := ⟨append⟩

def ofTriggers (triggers : List Trigger) : Facts := { triggers, embeddings := [] }

/-- The facts that each member of a list gives rise to, in order. -/
def collect (xs : List α) (f : α → Except ε Facts) : Except ε Facts :=
  xs.foldlM (fun facts x => return facts ++ (← f x)) empty

end Facts

/-- The entity at which a step ends a segment.  The end of the path ends one
only if `crossEnd` says so. -/
def crossing? (m : Schema) (crossEnd last : Bool) (step : TypedStep) : Option TypeName :=
  if last && !crossEnd then none else step.element.target?.filter m.isEntity

/-- Steps of a path on objects of one type, up to the next entity that the path
crosses or to its end. -/
structure Segment where
  /-- The type of the objects that the steps start from. -/
  owner : TypeName
  steps : List TypedStep
  /-- The entity crossed at the end of the steps. -/
  target : Option TypeName
deriving DecidableEq, Inhabited

/-- Property names of the steps. -/
def Segment.names (s : Segment) : String := stepNames s.steps

/-- The segments of the remaining steps of a path.  `owner` owns the segment
that `begun` belongs to. -/
def cutFrom (m : Schema) (crossEnd : Bool) :
    (owner : TypeName) → (begun : List TypedStep) → List TypedStep → List Segment
  | owner, begun, [] => if begun.isEmpty then [] else [{ owner, steps := begun, target := none }]
  | owner, begun, step :: rest =>
    match crossing? m crossEnd rest.isEmpty step with
    | none => cutFrom m crossEnd owner (begun ++ [step]) rest
    | some target =>
      { owner, steps := begun ++ [step], target } :: cutFrom m crossEnd target [] rest

/-- The segments of a path from `root`. -/
def cut (m : Schema) (crossEnd : Bool) (root : TypeName) (steps : List TypedStep) :
    List Segment :=
  cutFrom m crossEnd root [] steps

/-- The triggers of segments one after another, and the chain that leads back
from the end of the last.  `chain` leads back from the start of the first. -/
def triggersAlong (m : Schema) (t : InverseTable) (whole : TypeName × String) :
    (chain : List Backlink) → List Segment → Except MappingError (List Trigger × List Backlink)
  | chain, [] => .ok ([], chain)
  | chain, s :: rest =>
    match s.target with
    | none => .ok ([.along s.owner s.names chain], chain)
    | some target => do
      let link ← t.backlinkOver m whole s.owner s.names target
      let (triggers, back) ← triggersAlong m t whole (link :: chain) rest
      return (.along s.owner s.names chain ::
        .along (link.startCast.getD target) link.names (link :: chain) :: triggers, back)

/-- The triggers of a path from `root`, whose text is `text`, and the chain
that leads back from its end and on along `tail`. -/
def segments (m : Schema) (t : InverseTable) (root : TypeName) (text : String)
    (steps : List TypedStep) (crossEnd : Bool) (tail : List Backlink) :
    Except MappingError (List Trigger × List Backlink) :=
  triggersAlong m t (root, text) tail (cut m crossEnd root steps)

end IndexSync
