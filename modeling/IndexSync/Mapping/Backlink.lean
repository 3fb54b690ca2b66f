import IndexSync.Path.Elaborate

/-!
# Backlinks

A backlink leads back across one association, from an object to the entities
that refer to it.

- `Move` — one elementary operation of a walk.
- `Backlink.moves` — the moves of a backlink, ending in a landing.
- `chainMoves` — the moves of a chain of backlinks, one after another.
-/

namespace IndexSync

/-- The way back over one association. -/
structure Backlink where
  /-- The subtype that the starting object must have, if the inverse path is
  declared on a subtype only. -/
  startCast : Option TypeName
  /-- The inverse path. -/
  steps : List TypedStep
  /-- The subtype that the reached objects must have, if the inverse path is
  typed wider than the entity walked back to. -/
  endCast : Option TypeName
  /-- Static type of the objects that count as reached. -/
  land : TypeName
deriving DecidableEq, Inhabited

/-- One elementary operation of a walk. -/
inductive Move where
  | read (property : String)
  | extract (e : Extractor)
  | cast (target : TypeName)
  /-- An entity of this static type has been reached. -/
  | land (type : TypeName)
deriving DecidableEq

/-- The moves of one step. -/
def TypedStep.moves (s : TypedStep) : List Move :=
  .read s.property :: s.extractors.map .extract ++ s.cast.toList.map .cast

/-- Every extractor spelled out. -/
def TypedStep.render (s : TypedStep) : String :=
  s.property ++ String.join (s.extractors.map fun e => "[" ++ e.word ++ "]") ++
    PathPart.renderCast s.cast

namespace Backlink

/-- Property names of the inverse path. -/
def names (b : Backlink) : String := stepNames b.steps

def moves (b : Backlink) : List Move :=
  b.startCast.toList.map .cast ++ b.steps.flatMap (·.moves) ++ b.endCast.toList.map .cast ++
    [.land b.land]

def render (b : Backlink) : String :=
  (match b.startCast with
    | some type => "(" ++ type ++ ") "
    | none => "") ++
  dotted (b.steps.map (·.render)) ++
  (match b.endCast with
    | some type => " as " ++ type
    | none => "")

end Backlink

/-- The moves of backlinks followed one after another. -/
def chainMoves (chain : List Backlink) : List Move :=
  chain.flatMap (·.moves)

/-- The backlinks of a chain, each after an arrow. -/
def renderChain (chain : List Backlink) : String :=
  String.join (chain.map fun b => " -> " ++ b.render)

/-- Where a chain ends; an empty chain stays where it is. -/
def chainEnd (chain : List Backlink) (start : TypeName) : TypeName :=
  (chain.getLast?.map (·.land)).getD start

end IndexSync
