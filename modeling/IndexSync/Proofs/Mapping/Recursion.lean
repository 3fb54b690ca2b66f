import IndexSync.Mapping.Compile
import IndexSync.Proofs.Success

/-!
# Where recursion is found

Compiling a mapping can fail in many ways.  That embeddables embed one another is found in one
place only: when a path is embedded.

- `FindsNoRecursion` — a computation that may fail, but not for that reason; one lemma for
  each way to put computations together, and one for each stage of compiling.
- `embedFacts_eq_recursive`, `partFacts_eq_recursive` — what was found when it was found.
-/

namespace IndexSync

variable {α β σ : Type} {m : Schema} {ds : Declarations} {t : InverseTable} {root : TypeName}
  {chain : List TypeName}

/-- The computation may fail, but not since embeddables embed one another. -/
def FindsNoRecursion (x : Except MappingError α) : Prop :=
  ∀ chain, x ≠ .error (.recursiveEmbedding chain)

namespace FindsNoRecursion

/-! ## Computations put together -/

theorem ok (a : α) : FindsNoRecursion (.ok a) :=
  nofun

theorem pure (a : α) : FindsNoRecursion (Pure.pure a) :=
  nofun

theorem bind {x : Except MappingError α} {f : α → Except MappingError β} (h : FindsNoRecursion x)
    (h' : ∀ a, FindsNoRecursion (f a)) : FindsNoRecursion (x >>= f) := by
  cases x with
  | ok a => exact h' a
  | error e =>
      intro chain herror
      exact h chain (congrArg _ (Except.error.inj herror))

theorem mapError {ε : Type} {x : Except ε α} {f : ε → MappingError}
    (h : ∀ e chain, f e ≠ .recursiveEmbedding chain) : FindsNoRecursion (x.mapError f) := by
  cases x with
  | ok a => exact ok a
  | error e => exact fun chain herror => h e chain (Except.error.inj herror)

theorem foldlM {f : σ → α → Except MappingError σ} {l : List α} {s : σ}
    (h : ∀ s, ∀ a ∈ l, FindsNoRecursion (f s a)) : FindsNoRecursion (l.foldlM f s) := by
  induction l generalizing s with
  | nil => exact pure s
  | cons a l ih =>
      rw [List.foldlM_cons]
      refine bind (h s a List.mem_cons_self) fun s' => ?_
      exact ih fun s a ha => h s a (List.mem_cons_of_mem _ ha)

theorem forM {f : α → Except MappingError Unit} {l : List α} (h : ∀ a, FindsNoRecursion (f a)) :
    FindsNoRecursion (l.forM f) := by
  induction l with
  | nil => exact pure ()
  | cons a l ih => exact bind (h a) fun _ => ih

theorem collect {f : α → Except MappingError Facts} {l : List α}
    (h : ∀ a ∈ l, FindsNoRecursion (f a)) : FindsNoRecursion (Facts.collect l f) :=
  foldlM fun _ a ha => bind (h a ha) fun _ => pure _

/-- What follows such a computation is to blame. -/
theorem exists_of_bind {x : Except MappingError α} {f : α → Except MappingError β}
    (h : FindsNoRecursion x) (hbind : x >>= f = .error (.recursiveEmbedding chain)) :
    ∃ a, x = .ok a ∧ f a = .error (.recursiveEmbedding chain) := by
  cases x with
  | ok a => exact ⟨a, rfl, hbind⟩
  | error e => exact absurd (congrArg _ (Except.error.inj hbind)) (h chain)

/-- What precedes such computations is to blame. -/
theorem eq_recursive_of_bind {x : Except MappingError α} {f : α → Except MappingError β}
    (h : ∀ a, FindsNoRecursion (f a)) (hbind : x >>= f = .error (.recursiveEmbedding chain)) :
    x = .error (.recursiveEmbedding chain) := by
  cases x with
  | ok a => exact absurd hbind (h a chain)
  | error e => exact congrArg _ (Except.error.inj hbind)

end FindsNoRecursion

/-- Some member of a list is to blame for what is found in collecting their facts. -/
theorem exists_of_collect_eq_recursive {f : α → Except MappingError Facts} {l : List α}
    (h : Facts.collect l f = .error (.recursiveEmbedding chain)) :
    ∃ a ∈ l, f a = .error (.recursiveEmbedding chain) := by
  suffices go : ∀ start : Facts, l.foldlM (fun facts x => return facts ++ (← f x)) start =
      .error (.recursiveEmbedding chain) → ∃ a ∈ l, f a = .error (.recursiveEmbedding chain) from
    go _ h
  clear h
  induction l with
  | nil => exact nofun
  | cons a l ih =>
      intro start h
      rw [List.foldlM_cons] at h
      cases ha : f a with
      | error e =>
          rw [ha] at h
          cases Except.error.inj h
          exact ⟨a, List.mem_cons_self, ha⟩
      | ok F =>
          rw [ha] at h
          obtain ⟨a', hmem, ha'⟩ := ih _ h
          exact ⟨a', List.mem_cons_of_mem _ hmem, ha'⟩

/-! ## Stages of compiling -/

theorem findsNoRecursion_requireDeclared (name : TypeName) :
    FindsNoRecursion (requireDeclared m name) := by
  unfold requireDeclared
  split
  · exact .ok ()
  · exact nofun

theorem findsNoRecursion_parsePath (owner : TypeName) (text : String) :
    FindsNoRecursion (parsePath owner text) := by
  unfold parsePath
  split
  · exact .ok _
  · exact nofun

theorem findsNoRecursion_elaborateText (owner : TypeName) (text : String) (goal : PathGoal) :
    FindsNoRecursion (elaborateText m owner text goal) := by
  refine .bind (findsNoRecursion_parsePath owner text) fun path => ?_
  split
  · exact .ok _
  · exact nofun

theorem findsNoRecursion_checkPart (d : PartDecl) : FindsNoRecursion (checkPart m d) := by
  refine .bind (findsNoRecursion_requireDeclared _) fun _ => ?_
  split
  · exact nofun
  · split
    · exact nofun
    · refine .forM fun o => .bind (findsNoRecursion_requireDeclared _) fun _ => ?_
      split
      · exact .ok ()
      · exact nofun

theorem findsNoRecursion_enter (owner inverseOwner : TypeName) (path inversePath : String) :
    FindsNoRecursion (t.enter m owner path inverseOwner inversePath) := by
  refine .bind (findsNoRecursion_requireDeclared _) fun _ => ?_
  refine .bind (findsNoRecursion_parsePath _ _) fun forward => ?_
  split
  · exact nofun
  · refine .bind (findsNoRecursion_parsePath _ _) fun back => ?_
    dsimp only
    split
    · exact .pure _
    · split
      · exact .pure _
      · exact nofun

theorem findsNoRecursion_register (pairs : List InversePair) :
    FindsNoRecursion (InverseTable.register m pairs) :=
  .foldlM fun _ _ _ => .bind (findsNoRecursion_enter _ _ _ _) fun _ =>
    findsNoRecursion_enter _ _ _ _

theorem findsNoRecursion_linkAlong (owner target : TypeName) (names : String) (side : FarSide) :
    FindsNoRecursion (linkAlong m owner names target side) := by
  refine .bind ?_ fun startCast => .mapError nofun
  unfold startCastFor
  split
  · exact .ok _
  · split
    · exact .ok _
    · exact nofun

theorem findsNoRecursion_backlinkOver (whole : TypeName × String) (owner target : TypeName)
    (names : String) : FindsNoRecursion (t.backlinkOver m whole owner names target) := by
  unfold InverseTable.backlinkOver
  split
  · exact nofun
  · exact findsNoRecursion_linkAlong _ _ _ _

theorem findsNoRecursion_triggersAlong (whole : TypeName × String) (segs : List Segment)
    (links : List Backlink) : FindsNoRecursion (triggersAlong m t whole links segs) := by
  induction segs generalizing links with
  | nil => exact .ok _
  | cons seg segs ih =>
      unfold triggersAlong
      split
      · exact .ok _
      · exact .bind (findsNoRecursion_backlinkOver _ _ _ _) fun link =>
          .bind (ih _) fun _ => .pure _

theorem findsNoRecursion_segments (text : String) (steps : List TypedStep) (crossEnd : Bool)
    (tail : List Backlink) : FindsNoRecursion (segments m t root text steps crossEnd tail) :=
  findsNoRecursion_triggersAlong _ _ _

theorem findsNoRecursion_readFacts (place path : String) :
    FindsNoRecursion (readFacts m t root place path) :=
  .bind (findsNoRecursion_elaborateText _ _ _) fun _ =>
    .bind (findsNoRecursion_segments _ _ _ _) fun _ => .pure _

theorem findsNoRecursion_dependencyFacts (o : Dependency) :
    FindsNoRecursion (dependencyFacts m t root o) := by
  refine .bind ?_ fun link => .bind (.collect fun path _ => ?_) fun _ => .pure _
  · exact .bind (findsNoRecursion_parsePath _ _) fun _ => .mapError nofun
  · exact .bind (findsNoRecursion_elaborateText _ _ _) fun _ =>
      .bind (findsNoRecursion_segments _ _ _ _) fun _ => .pure _

/-! ## Embedded paths -/

/-- The path leads to an embeddable that is being inlined, or recursion is found while its own
declarations are inlined. -/
theorem embedFacts_eq_recursive
    {inline : String → List TypeName → PartDecl → Except MappingError Facts} {place path : String}
    {inside : List TypeName}
    (h : embedFacts m ds t root inline place inside path = .error (.recursiveEmbedding chain)) :
    ∃ steps, elaborateText m root (below place path) .objects = .ok steps ∧
      m.isEntity (endOf root steps) = false ∧
      (endOf root steps ∈ inside ∧ chain = root :: inside ++ [endOf root steps] ∨
        endOf root steps ∉ inside ∧ ∃ d ∈ inlinedInto m ds (endOf root steps),
          inline (below place path) (inside ++ [endOf root steps]) d =
            .error (.recursiveEmbedding chain)) := by
  obtain ⟨steps, hsteps, h⟩ :=
    (findsNoRecursion_elaborateText root (below place path) .objects).exists_of_bind h
  refine ⟨steps, hsteps, ?_⟩
  dsimp only at h
  split at h
  · obtain ⟨_, -, h⟩ := (findsNoRecursion_segments _ _ _ _).exists_of_bind h
    cases h
  · rename_i hentity
    refine ⟨Bool.eq_false_iff.mpr hentity, ?_⟩
    obtain ⟨_, -, h⟩ := (findsNoRecursion_segments _ _ _ _).exists_of_bind h
    split at h
    · rename_i hinside
      cases h
      exact .inl ⟨hinside, rfl⟩
    · rename_i hinside
      right
      refine ⟨hinside, ?_⟩
      apply exists_of_collect_eq_recursive
      exact FindsNoRecursion.eq_recursive_of_bind (fun _ => .pure _) h

/-- One of the paths embedded is to blame for what is found in a part. -/
theorem partFacts_eq_recursive {depth : Nat} {place : String} {inside : List TypeName}
    {d : PartDecl}
    (h : partFacts m ds t root (depth + 1) place inside d =
      .error (.recursiveEmbedding chain)) :
    ∃ path ∈ d.embed, embedFacts m ds t root (partFacts m ds t root depth) place inside path =
      .error (.recursiveEmbedding chain) := by
  have hread : FindsNoRecursion (Facts.collect d.read (readFacts m t root place)) :=
    .collect fun path _ => findsNoRecursion_readFacts place path
  have hother : FindsNoRecursion (Facts.collect d.other (dependencyFacts m t root)) :=
    .collect fun o _ => findsNoRecursion_dependencyFacts o
  rw [partFacts] at h
  obtain ⟨R, -, h⟩ := hread.exists_of_bind h
  apply exists_of_collect_eq_recursive
  exact FindsNoRecursion.eq_recursive_of_bind (fun _ => .bind hother fun _ => .pure _) h

end IndexSync
