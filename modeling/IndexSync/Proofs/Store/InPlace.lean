import IndexSync.Proofs.Store.Writes

/-!
# Writing in place

A store that is written in place keeps what a call has written before it fails.  Every call
checks first and writes last, so one that fails has written nothing.

- `Update` — a computation that writes a store in place, and `Update.insertAt`, `Update.set`
  and so on, which take the steps of a call one after another.
- `Update.on_bind` — what comes second starts from what the first has left behind.
- `Write.on_perform` — in place, a call leaves the store that it makes of a store otherwise,
  and one that fails leaves the store as it was.
-/

namespace IndexSync

/-- A computation that writes a store in place: what it wrote stays when it fails later. -/
abbrev Update (schema : Schema) := ExceptT DataError (StateM (ObjectStore schema))

namespace Update

variable {schema : Schema} {α β : Type}

/-- The result of a computation, and the store that it leaves behind. -/
def on (u : Update schema α) (s : ObjectStore schema) : Except DataError α × ObjectStore schema :=
  (u.run.run s).run

/-- A store that was made takes the place of the one that it was made of. -/
def commit (s : ObjectStore schema) :
    Except DataError (α × ObjectStore schema) → Except DataError α × ObjectStore schema
  | .ok (a, s') => (.ok a, s')
  | .error e => (.error e, s)

/-! ## Calls step by step -/

def insertAt (o : ObjectId) (type : TypeName) (fields : List (String × Value)) :
    Update schema Unit :=
  match h : schema.definition? type with
  | none => throw (.unknownType type)
  | some d =>
    if abstract : d.isAbstract then throw (.abstractType type)
    else do
      if (← get).contains o then throw (.duplicateObject o)
      else
        let properties ← ofExcept (ObjectStore.checkFields schema type fields)
        modify fun s =>
          s.put o { type, properties } (Schema.isConcrete_of_definition? (t := type) h abstract)
        modify fun s => { s with nextId := max s.nextId o.next }

def insert (type : TypeName) (fields : List (String × Value)) : Update schema ObjectId := do
  let o := (← get).nextId
  insertAt o type fields
  return o

/-- Writes a property of an object, and gives the value that it had. -/
def write (o : ObjectId) (name : String) (v : Value) : Update schema Value := do
  let s ← get
  match h : s.get? o with
  | none => throw (.unknownObject o)
  | some stored =>
    modify fun _ =>
      s.put o { stored with properties := stored.properties.insert name v } (s.concrete o stored h)
    return stored.properties.getD name .null

def set (o : ObjectId) (name : String) (v : Value) : Update schema Value := do
  let type ← ofExcept ((← get).runtimeType o)
  ofExcept (ObjectStore.requireProperty schema type name)
  write o name v

def push (o : ObjectId) (name : String) (element : Value) : Update schema Unit := do
  let current ← ofExcept ((← get).read o name)
  match ObjectStore.append? element current with
  | none => throw (.wrongContainer .list current.shape)
  | some updated => let _ ← set o name updated

def remove (o : ObjectId) : Update schema (Option StoredObject) := do
  let s ← get
  modify fun _ => (s.remove o).2
  return s.get? o

/-! ## Steps -/

variable {s : ObjectStore schema}

@[simp] theorem on_get : (get : Update schema (ObjectStore schema)).on s = (.ok s, s) := rfl

@[simp] theorem on_ofExcept (x : Except DataError α) :
    (ofExcept x : Update schema α).on s = (x, s) := by
  cases x <;> rfl

/-- What comes second starts from the store that is left behind, unless the first fails. -/
@[simp] theorem on_bind (u : Update schema α) (f : α → Update schema β) :
    (u >>= f).on s =
      match u.on s with
      | (.ok a, s') => (f a).on s'
      | (.error e, s') => (.error e, s') := by
  unfold on
  rw [ExceptT.run_bind, StateT.run_bind]
  rcases hu : u.run.run s with ⟨e | a, s'⟩
  · rfl
  · rfl

section

variable {o : ObjectId} {type : TypeName} {fields : List (String × Value)}

theorem insertAt_of_undefined (h : schema.definition? type = none) :
    (insertAt o type fields : Update schema Unit) = throw (.unknownType type) := by
  unfold insertAt
  split
  · rfl
  · rename_i hd
    cases h.symm.trans hd

theorem insertAt_of_abstract {d : TypeDef} (h : schema.definition? type = some d)
    (habstract : d.isAbstract = true) :
    (insertAt o type fields : Update schema Unit) = throw (.abstractType type) := by
  unfold insertAt
  split
  · rename_i hunknown
    cases h.symm.trans hunknown
  · rename_i d' hd
    cases h.symm.trans hd
    rw [dif_pos habstract]

theorem insertAt_of_concrete (h : schema.isConcrete type = true) :
    (insertAt o type fields : Update schema Unit) = (do
      if (← get).contains o then throw (.duplicateObject o)
      else
        let properties ← ofExcept (ObjectStore.checkFields schema type fields)
        modify fun s => s.put o { type, properties } h
        modify fun s => { s with nextId := max s.nextId o.next }) := by
  unfold insertAt
  split
  · rename_i hunknown
    simp [Schema.isConcrete, hunknown] at h
  · rename_i d hd
    have hconcrete : ¬ d.isAbstract = true := by simpa [Schema.isConcrete, hd] using h
    rw [dif_neg hconcrete]

theorem on_insertAt :
    (insertAt o type fields).on s =
      commit s ((s.insertAt o type fields).map fun s' => ((), s')) := by
  cases hd : schema.definition? type with
  | none =>
      rw [insertAt_of_undefined hd, ObjectStore.insertAt_of_undefined hd]
      rfl
  | some d =>
      by_cases habstract : d.isAbstract = true
      · rw [insertAt_of_abstract hd habstract, ObjectStore.insertAt_of_abstract hd habstract]
        rfl
      · have htype := Schema.isConcrete_of_definition? hd habstract
        rw [insertAt_of_concrete htype, ObjectStore.insertAt_of_concrete htype]
        simp only [on_bind, on_get]
        split
        · rfl
        · simp only [on_bind, on_ofExcept]
          cases ObjectStore.checkFields schema type fields with
          | error e => rfl
          | ok properties => rfl

end

theorem on_insert (type : TypeName) (fields : List (String × Value)) :
    (insert type fields).on s = commit s (s.insert type fields) := by
  unfold insert ObjectStore.insert
  simp only [on_bind, on_get, on_insertAt]
  cases s.insertAt s.nextId type fields with
  | error e => rfl
  | ok s' => rfl

theorem on_write {o : ObjectId} {stored : StoredObject} (h : s.get? o = some stored)
    (name : String) (v : Value) :
    (write o name v).on s = (.ok (stored.properties.getD name .null),
      s.put o { stored with properties := stored.properties.insert name v }
        (s.concrete o stored h)) := by
  unfold write
  simp only [on_bind, on_get]
  split
  · rename_i hgone
    cases h.symm.trans hgone
  · rename_i stored' h'
    cases h.symm.trans h'
    rfl

theorem on_set (o : ObjectId) (name : String) (v : Value) :
    (set o name v).on s = commit s (s.set o name v) := by
  cases hstored : s.get? o with
  | none =>
      have htype : s.runtimeType o = .error (.unknownObject o) := by
        rw [ObjectStore.runtimeType, ObjectStore.object, hstored]
        rfl
      rw [ObjectStore.set_of_get?_eq_none hstored]
      simp only [set, on_bind, on_get, on_ofExcept, htype]
      rfl
  | some stored =>
      have htype : s.runtimeType o = .ok stored.type :=
        ObjectStore.runtimeType_eq_ok.mpr ⟨stored, hstored, rfl⟩
      rw [ObjectStore.set_of_get? hstored]
      simp only [set, on_bind, on_get, on_ofExcept, htype]
      cases ObjectStore.requireProperty schema stored.type name with
      | error e => rfl
      | ok _ => exact on_write hstored name v

theorem on_push (o : ObjectId) (name : String) (element : Value) :
    (push o name element).on s =
      commit s ((s.push o name element).map fun s' => ((), s')) := by
  unfold push ObjectStore.push
  simp only [on_bind, on_get, on_ofExcept]
  cases s.read o name with
  | error e => rfl
  | ok current =>
      dsimp only
      cases happend : ObjectStore.append? element current with
      | none =>
          simp only [bind, Except.bind, happend]
          rfl
      | some updated =>
          simp only [on_bind, on_set]
          cases hset : s.set o name updated with
          | error e =>
              simp only [bind, Except.bind, happend, hset]
              rfl
          | ok p =>
              simp only [bind, Except.bind, happend, hset]
              rfl

end Update

namespace ObjectStore

variable {schema : Schema} {s s' : ObjectStore schema}

/-! ## Calls -/

namespace Write

/-- A call, taken in place. -/
def perform : Write → Update schema Unit
  | .insert type fields => do let _ ← Update.insert type fields
  | .insertAt o type fields => Update.insertAt o type fields
  | .set o name v => do let _ ← Update.set o name v
  | .push o name element => Update.push o name element
  | .remove o => do let _ ← Update.remove o

/-- In place, a call leaves the store that it makes of a store otherwise, and one that fails
leaves the store as it was. -/
theorem on_perform (call : Write) :
    (call.perform).on s = Update.commit s ((s.write call).map fun s' => ((), s')) := by
  cases call with
  | insert type fields =>
      simp only [perform, Update.on_bind, Update.on_insert, ObjectStore.write]
      cases s.insert type fields with
      | error e => rfl
      | ok p => rfl
  | insertAt o type fields => exact Update.on_insertAt
  | set o name v =>
      simp only [perform, Update.on_bind, Update.on_set, ObjectStore.write]
      cases s.set o name v with
      | error e => rfl
      | ok p => rfl
  | push o name element => exact Update.on_push o name element
  | remove o => rfl

theorem on_perform_eq_ok {call : Write} :
    (call.perform).on s = (.ok (), s') ↔ s.write call = .ok s' := by
  rw [on_perform]
  cases s.write call <;> simp [Update.commit, Except.map]

theorem on_perform_eq_error {call : Write} {e : DataError} :
    (call.perform).on s = (.error e, s') ↔ s.write call = .error e ∧ s' = s := by
  rw [on_perform]
  cases s.write call <;> simp [Update.commit, Except.map, @eq_comm _ s]

end Write

/-- The store that calls leave behind, first to last. -/
def performAll (s : ObjectStore schema) (calls : List Write) : ObjectStore schema :=
  calls.foldl (fun s call => (call.perform.on s).2) s

theorem performAll_eq_afterAll (s : ObjectStore schema) (calls : List Write) :
    s.performAll calls = s.afterAll calls := by
  have hafter : (fun (s : ObjectStore schema) (call : Write) => (call.perform.on s).2) = after := by
    funext s call
    rw [Write.on_perform, after]
    cases s.write call <;> rfl
  rw [performAll, hafter, afterAll]

end ObjectStore

end IndexSync
