import IndexSync.Mapping.Backlink

/-!
# Triggers and embedding edges

The two kinds of facts that a mapping boils down to.

- `Trigger` — a change of some property of some type, and the way from the
  changed object to the entities whose document part it invalidates.
- `Embedding` — the way from an entity to the entities whose documents
  embed its document part.
-/

namespace IndexSync

/-- When a `changed` object changes at `dirty`, the document part of every
object at the end of the chain has changed. -/
structure Trigger where
  changed : TypeName
  /-- Property names relative to the changed object. -/
  dirty : String
  /-- Backlinks in walking order. -/
  chain : List Backlink
  /-- Static type of the objects at the end of the chain. -/
  landing : TypeName
deriving DecidableEq, Inhabited

namespace Trigger

/-- The trigger of a chain, landing where the chain ends. -/
def along (changed : TypeName) (dirty : String) (chain : List Backlink) : Trigger :=
  { changed, dirty, chain, landing := chainEnd chain changed }

def moves (t : Trigger) : List Move := chainMoves t.chain

def render (t : Trigger) : String :=
  t.changed ++ "[" ++ t.dirty ++ "]" ++ renderChain t.chain ++ " => " ++ t.landing

end Trigger

/-- When the document part of a `target` object changes, so does that of every
object at the end of the chain. -/
structure Embedding where
  target : TypeName
  chain : List Backlink
  landing : TypeName
deriving DecidableEq, Inhabited

namespace Embedding

def moves (e : Embedding) : List Move := chainMoves e.chain

def render (e : Embedding) : String :=
  e.target ++ renderChain e.chain ++ " => " ++ e.landing

end Embedding

end IndexSync
