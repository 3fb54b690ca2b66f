import IndexSync.Engine

/-!
# Indexing plans

A plan collects the changes of one unit of work and turns them into writes to
the index.

- `Fate.merge` — what is left of two changes of one object.
- `Plan.note` — adds a change to the table; objects stay in the order of their first one.
- `Plan.process` — the works, one per entity in order of reference, and the
  changes whose further consequences were left for later.
-/

namespace IndexSync

/-- What is done to a document.  A later action prevails over an earlier one. -/
inductive Action where
  | update
  | add
  | delete
deriving DecidableEq

namespace Action

def text : Action → String
  | update => "update"
  | add => "add"
  | delete => "delete"

/-- Deleting prevails over adding, and that over updating. -/
def strength : Action → Nat
  | update => 0
  | add => 1
  | delete => 2

def max (a b : Action) : Action :=
  if a.strength < b.strength then b else a

end Action

/-- One document to be written. -/
structure Work where
  reference : EntityRef
  action : Action
deriving DecidableEq

def Work.render (w : Work) : String :=
  w.action.text ++ " " ++ w.reference.render

/-- When the consequences of a change for other documents are worked out. -/
inductive Timing where
  /-- At once. -/
  | atOnce
  /-- At once for deletions, later for anything else. -/
  | deletesAtOnce
deriving DecidableEq

/-- What has become of one object. -/
inductive Fate where
  | added
  /-- Without paths, any may have changed. -/
  | updated (dirty : Option DirtySet)
  /-- `wasAdded` if the object came into being in the same unit of work. -/
  | deleted (wasAdded : Bool)
deriving DecidableEq

/-- What is left of a change and a later event. -/
def Fate.merge : Fate → Fate → Fate
  | deleted _, added => added
  | deleted wasAdded, _ => deleted wasAdded
  | added, deleted _ => deleted true
  | _, deleted wasAdded => deleted wasAdded
  | _, added => added
  | added, updated _ => added
  | updated (some known), updated (some more) => updated (some (known ∪ more))
  | updated _, updated _ => updated none

/-- A change whose consequences are still to be worked out. -/
structure Postponed where
  object : ObjectId
  dirty : Option DirtySet
deriving DecidableEq

structure Plan where
  timing : Timing
  /-- Objects in the order of their first change. -/
  order : List ObjectId
  /-- What became of each of them. -/
  fates : SortedMap ObjectId Fate
deriving DecidableEq

/-- Actions by entity. -/
abbrev Works := SortedMap EntityRef Action

namespace Works

/-- Adds an action to those on the same document. -/
def merge (works : Works) (r : EntityRef) (action : Action) : Works :=
  works.insert r ((works.getD r action).max action)

/-- Updates all documents of a set. -/
def mergeUpdates (works : Works) (found : EntitySet) : Works :=
  found.toList.foldl (fun works r => works.merge r .update) works

/-- One work for each document, in order of reference. -/
def inOrder (works : Works) : List Work :=
  works.toList.map fun (reference, action) => { reference, action }

end Works

namespace Plan

def empty (timing : Timing) : Plan := { timing, order := [], fates := ∅ }

def clear (p : Plan) : Plan := { p with order := [], fates := ∅ }

def size (p : Plan) : Nat := p.order.length

def isEmpty (p : Plan) : Bool := p.order.isEmpty

/-- Adds an event to what became of an object. -/
def note (p : Plan) (object : ObjectId) (event : Fate) : Plan :=
  match p.fates[object]? with
  | none => { p with order := p.order ++ [object], fates := p.fates.insert object event }
  | some change => { p with fates := p.fates.insert object (change.merge event) }

def add (p : Plan) (object : ObjectId) : Plan := p.note object .added

def update (p : Plan) (object : ObjectId) (dirty : Option DirtySet) : Plan :=
  p.note object (.updated dirty)

/-- The object must stay readable until the plan is processed. -/
def delete (p : Plan) (object : ObjectId) : Plan := p.note object (.deleted false)

/-- What processing has come to. -/
structure Outcome where
  works : Works
  postponed : List Postponed

variable {schema : Schema}

/-- The reference of an object, as a request. -/
def ownReference (store : ObjectStore schema) (object : ObjectId) : Request schema EntityRef :=
  match store.reference object with
  | .ok r => pure r
  | .error e => throw (.data e)

/-- Writes an action on the object's own document, if it has one. -/
def mergeOwn (store : ObjectStore schema) (object : ObjectId) (indexed : Bool) (action : Action)
    (works : Works) : Request schema Works := do
  if indexed then return works.merge (← ownReference store object) action
  else return works

/-- The consequences of what became of one object. -/
def processChange (timing : Timing) (store : ObjectStore schema) (outcome : Outcome)
    (object : ObjectId) (change : Fate) : Request schema Outcome := do
  let type ← Engine.runtimeType store object
  let indexed := (← get).mapping.isIndexed type
  let later (works : Works) (dirty : Option DirtySet) : Request schema Outcome :=
    match timing with
    | .atOnce => do
      let found ← Engine.afterChange store object dirty
      return { outcome with works := works.mergeUpdates found }
    | .deletesAtOnce =>
      return { works, postponed := outcome.postponed ++ [{ object, dirty }] }
  match change with
  | .deleted true => return outcome
  | .deleted false =>
    let found ← Engine.afterDelete store object
    let works ← mergeOwn store object indexed .delete (outcome.works.mergeUpdates found)
    return { outcome with works }
  | .added => later (← mergeOwn store object indexed .add outcome.works) none
  | .updated dirty => later outcome.works dirty

/-- Works out all changes in order.  An object without a change is passed over. -/
def process (p : Plan) (store : ObjectStore schema) : Request schema Outcome :=
  p.order.foldlM
    (fun outcome object =>
      match p.fates[object]? with
      | none => return outcome
      | some change => processChange p.timing store outcome object change)
    { works := ∅, postponed := [] }

end Plan

/-- The entities to be indexed again because of a postponed change. -/
def Postponed.catchUp {schema : Schema} (d : Postponed) (store : ObjectStore schema) :
    Request schema EntitySet :=
  Engine.afterChange store d.object d.dirty

end IndexSync
