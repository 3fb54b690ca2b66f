import IndexSync.ChangeTree.Arena

/-!
# Walking a tree

A walk follows the nodes of a tree through an object store and collects the
entities to be indexed again.

- `Walk.follow` — where one place leads to and what is found there; this alone
  is the meaning of a node.
- `Walk.step` — one step of the walk: the topmost place is taken off a stack
  and its successors are put on it.  At `type` and `cast` nodes an object is
  followed only once.
- `Walk.run` — all steps.  Cycles of trees and objects are cut by the pairs
  already met, so `Walk.budget` steps are enough for any store.
-/

namespace IndexSync

/-! ## The extent of values -/

namespace Value

/-- The most elements that any one container within the value has. -/
def breadth : Value → Nat
  | list items | set items | array items => max items.length (breadthAll items)
  | map entries => max entries.length (breadthEntries entries)
  | optional none => 0
  | optional (some v) => max 1 v.breadth
  | _ => 0
where
  breadthAll : List Value → Nat
    | [] => 0
    | v :: rest => max v.breadth (breadthAll rest)
  breadthEntries : List (Value × Value) → Nat
    | [] => 0
    | (k, v) :: rest => max (max k.breadth v.breadth) (breadthEntries rest)

/-- The ids referred to within the value. -/
def refs : Value → List ObjectId
  | ref id => [id]
  | list items | set items | array items => refsAll items
  | map entries => refsEntries entries
  | optional none => []
  | optional (some v) => v.refs
  | _ => []
where
  refsAll : List Value → List ObjectId
    | [] => []
    | v :: rest => v.refs ++ refsAll rest
  refsEntries : List (Value × Value) → List ObjectId
    | [] => []
    | (k, v) :: rest => k.refs ++ v.refs ++ refsEntries rest

end Value

/-! ## Places -/

/-- What a walk stands on: an object, or a value read from one. -/
inductive Footing where
  | object (id : ObjectId)
  | value (v : Value)
deriving DecidableEq

namespace Footing

/-- The object stood on; nothing on null. -/
def object? : Footing → Except DataError (Option ObjectId)
  | object id => .ok (some id)
  | value .null => .ok none
  | value (.ref id) => .ok (some id)
  | value v => .error (.notReference v.shape)

end Footing

/-- A node and what it is applied to. -/
abbrev Place := NodeId × Footing

/-- What one place leads to. -/
structure Followed where
  /-- The places to go on with, in walking order. -/
  next : List Place
  /-- The entity found at the place itself. -/
  found : Option EntityRef

namespace Followed

/-- Nothing to go on with. -/
def nowhere : Followed := { next := [], found := none }

def onward (next : List Place) : Followed := { next, found := none }

end Followed

/-- A tree, a store, and the ordinals of the dirty paths if these are known. -/
structure Walk (schema : Schema) where
  arena : Arena
  store : ObjectStore schema
  dirty : Option OrdinalSet

variable {schema : Schema}

namespace Walk

/-- Whether a filter keeps the walk out. -/
def blocks (w : Walk schema) (relevant : OrdinalSet) : Bool :=
  match w.dirty with
  | none => false
  | some dirty => !relevant.intersects dirty

/-- Lifts an error of the store. -/
def reading (result : Except DataError α) : Except SyncError α :=
  result.mapError .data

/-- Applies `next` to the object stood on, if there is one. -/
def onObject (footing : Footing) (next : ObjectId → Except SyncError Followed) :
    Except SyncError Followed := do
  match ← reading footing.object? with
  | none => return .nowhere
  | some object => next object

/-- Where a place leads to.  Elements of a container are walked last first. -/
def follow (w : Walk schema) (place : Place) : Except SyncError Followed :=
  let (id, footing) := place
  match w.arena.get? id with
  | none => .error (.invariant (.danglingNode id))
  | some (.type static dispatch) =>
    onObject footing fun object => do
      let type ← reading (w.store.runtimeType object)
      match dispatch[type]? with
      | some nested => return .onward [(nested, .object object)]
      | none =>
        if schema.fits type static then return .nowhere
        else .error (.invariant (.unexpectedType object type static))
  | some (.cast target nested) =>
    onObject footing fun object => do
      match ← reading (w.store.narrowed? object target) with
      | none => return .nowhere
      | some object => return .onward [(nested, .object object)]
  | some (.property name nested) =>
    onObject footing fun object => do
      let value ← reading (w.store.read object name)
      return .onward (if value.isNull then [] else [(nested, .value value)])
  | some (.extract e nested) =>
    match footing with
    | .object _ => .error (.invariant (.extractorOnObject e id))
    | .value v => do
      let items ← reading (e.elements v)
      return .onward ((items.filter (!·.isNull)).reverse.map fun item => (nested, .value item))
  | some (.union children) => .ok (.onward (children.map fun child => (child, footing)))
  | some (.ifDirty relevant nested) =>
    .ok (.onward (if w.blocks relevant then [] else [(nested, footing)]))
  | some .reindex =>
    onObject footing fun object => do
      return { next := [], found := some (← reading (w.store.reference object)) }
  | some .pending => .error (.invariant (.pending id))

/-- The object that must not be followed from the same node twice. -/
def guarded? (w : Walk schema) (place : Place) : Option ObjectId :=
  match w.arena.get? place.1 with
  | some (.type _ _) | some (.cast _ _) =>
    match place.2.object? with
    | .ok object => object
    | .error _ => none
  | _ => none

/-- Whether the place is a filter that keeps the walk out. -/
def isPruned (w : Walk schema) (place : Place) : Bool :=
  match w.arena.get? place.1 with
  | some (.ifDirty relevant _) => w.blocks relevant
  | _ => false

/-! ## The work stack -/

/-- A walk under way. -/
structure State where
  /-- Places still to be followed, next one first. -/
  stack : List Place
  findings : Findings
  /-- How often a filter kept the walk out. -/
  pruned : Nat
  /-- How often a pair had been met before. -/
  cut : Nat

/-- Follows one place that has been taken off the stack. -/
def step (w : Walk schema) (place : Place) (s : State) : Except SyncError State :=
  let follow (findings : Findings) : Except SyncError State := do
    let followed ← w.follow place
    return { s with
      stack := followed.next ++ s.stack
      findings := match followed.found with
        | some r => (findings.add r).2
        | none => findings
      pruned := s.pruned + (if w.isPruned place then 1 else 0) }
  match w.guarded? place with
  | none => follow s.findings
  | some object =>
    -- what lies behind a pair has been found, or is still on the stack
    match s.findings.meet place.1 object with
    | (false, _) => .ok { s with cut := s.cut + 1 }
    | (true, findings) => follow findings

/-- How a walk came to its end. -/
inductive Ending where
  | finished
  | failed (e : SyncError)
  /-- The steps allowed were used up. -/
  | exhausted
deriving DecidableEq

/-- At most `steps` steps; an error keeps what was counted before it. -/
def runFor (w : Walk schema) : (steps : Nat) → State → Ending × State
  | 0, s => (if s.stack.isEmpty then .finished else .exhausted, s)
  | steps + 1, s =>
    match s.stack with
    | [] => (.finished, s)
    | place :: rest =>
      match w.step place { s with stack := rest } with
      | .ok s => w.runFor steps s
      | .error e => (.failed e, s)

/-! ## Enough steps -/

/-- The most children of any union. -/
def width (a : Arena) : Nat :=
  (a.nodes.toList.map fun node => node.children.length).foldl max 0

/-- Every value that an object of the store holds. -/
def storeValues (s : ObjectStore schema) : List Value :=
  s.objects.contents.flatMap fun o => o.properties.contents

/-- The most elements of any container in the store. -/
def storeBreadth (s : ObjectStore schema) : Nat :=
  ((storeValues s).map Value.breadth).foldl max 0

/-- How many references the store holds. -/
def storeRefs (s : ObjectStore schema) : Nat :=
  ((storeValues s).flatMap Value.refs).length

/-- More than one place ever leads to. -/
def fan (w : Walk schema) : Nat :=
  width w.arena + storeBreadth w.store + 2

/-- As many steps as any walk from so many nodes takes: for each of these, and
for each pair of a node and an object met, the places reachable without meeting
another such pair. -/
def budget (w : Walk schema) (starts : Nat) : Nat :=
  let nodes := w.arena.size
  (nodes * (storeRefs w.store + 1) + starts) * Nat.pow w.fan (2 * nodes + 2)

/-- The state before the first step, at the given nodes; the last is walked
first. -/
def start (nodes : List NodeId) (object : ObjectId) : State :=
  { stack := nodes.reverse.map fun node => (node, .object object)
    findings := .empty, pruned := 0, cut := 0 }

/-- As many steps as most walks take. -/
def usualSteps : Nat := 4096

/-- The whole walk.  Its budget is worked out only when it turns out to be a
long one, since that takes a look at the whole store. -/
def run (w : Walk schema) (nodes : List NodeId) (object : ObjectId) : Ending × State :=
  match w.runFor usualSteps (start nodes object) with
  | (.exhausted, s) => w.runFor (w.budget nodes.length) s
  | done => done

/-- A walk cut in two goes on where it was. -/
theorem runFor_add (w : Walk schema) (m n : Nat) (s : State) :
    w.runFor (m + n) s = match w.runFor m s with
      | (.exhausted, s) => w.runFor n s
      | done => done := by
  induction m generalizing s with
  | zero =>
    rw [Nat.zero_add]
    cases n <;> cases h : s.stack <;> simp [runFor, h]
  | succ m ih =>
    rw [Nat.succ_add]
    cases h : s.stack with
    | nil => simp [runFor, h]
    | cons place rest =>
      simp only [runFor, h]
      split
      · exact ih _
      · rfl

theorem run_eq_runFor (w : Walk schema) (nodes : List NodeId) (object : ObjectId) :
    w.run nodes object =
      w.runFor (usualSteps + w.budget nodes.length) (start nodes object) :=
  (w.runFor_add usualSteps (w.budget nodes.length) (start nodes object)).symm

end Walk

end IndexSync
