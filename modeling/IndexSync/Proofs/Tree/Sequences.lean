import Mathlib.Data.List.Induction
import Mathlib.Data.List.Nodup
import IndexSync.ChangeTree.Layout
import IndexSync.Proofs.Success

/-!
# Sequences in a trie

A trie of merged sequences has lost none and made up none.

- `OrdinalSet.IsUnion` — a set is the union of a family of sets.
- `SequenceSet` — sequences of moves, each with its ordinals.
- `Trie.Merges` — a trie is what a set of sequences merges to: one branch for each first
  move, with exactly the ordinals of the sequences that go through it
  (`merges_ofSequences`).
- `ChangeTree.mem_sequences`, `ChangeTree.exists_sequence` — the sequences of a
  type are those of its triggers, and each ordinal stands for a dirty path.
-/

namespace IndexSync

/-! ## Unions -/

namespace OrdinalSet

/-- The members of the set are those of the sets in `F`. -/
def IsUnion (whole : OrdinalSet) (F : OrdinalSet → Prop) : Prop :=
  ∀ n, whole.contains n = true ↔ ∃ bits, F bits ∧ bits.contains n = true

variable {whole bits : OrdinalSet} {F G : OrdinalSet → Prop}

theorem IsUnion.subset (h : whole.IsUnion F) (hbits : F bits) : bits.subset whole = true :=
  subset_iff.mpr fun n hn => (h n).mpr ⟨bits, hbits, hn⟩

theorem IsUnion.congr (h : whole.IsUnion F) (hiff : ∀ bits, F bits ↔ G bits) : whole.IsUnion G := by
  obtain rfl : F = G := funext fun bits => propext (hiff bits)
  exact h

theorem isUnion_empty (h : ∀ bits, ¬ F bits) : empty.IsUnion F := by
  intro n
  rw [contains_empty]
  constructor
  · nofun
  · rintro ⟨bits, hbits, -⟩
    exact absurd hbits (h bits)

theorem IsUnion.union (h : whole.IsUnion F) (bits : OrdinalSet) :
    (whole.union bits).IsUnion fun more => F more ∨ more = bits := by
  intro n
  rw [contains_union, Bool.or_eq_true, h n]
  constructor
  · rintro (⟨more, hmore, hn⟩ | hn)
    · exact ⟨more, .inl hmore, hn⟩
    · exact ⟨bits, .inr rfl, hn⟩
  · rintro ⟨more, hmore | rfl, hn⟩
    · exact .inl ⟨more, hmore, hn⟩
    · exact .inr hn

end OrdinalSet

/-! ## Merged sequences -/

/-- Sequences of moves, each with the ordinals that it is entered with. -/
abbrev SequenceSet := List Move → OrdinalSet → Prop

/-- What the sequences that begin with a move go on with. -/
def SequenceSet.after (S : SequenceSet) (move : Move) : SequenceSet :=
  fun ms bits => S (move :: ms) bits

/-- The sequences without their ordinals. -/
def SequenceSet.moves (S : SequenceSet) : List Move → Prop :=
  fun ms => ∃ bits, S ms bits

/-- The sequences and one more. -/
def SequenceSet.adding (S : SequenceSet) (ms : List Move) (bits : OrdinalSet) : SequenceSet :=
  fun ms' bits' => S ms' bits' ∨ ms' = ms ∧ bits' = bits

namespace Trie

/-- The trie is what the sequences merge to: it ends where some of them end, and has one
branch for each move that some of them begin with, with the ordinals of all of these. -/
inductive Merges : Trie → SequenceSet → Prop
  | fork {S : SequenceSet} {ended : Option OrdinalSet}
      {branches : List (Move × OrdinalSet × Trie)} :
      (ended.isSome = true ↔ ∃ bits, S [] bits) →
      (ended.getD .empty).IsUnion (S []) →
      (branches.map (·.1)).Nodup →
      (∀ move, move ∈ branches.map (·.1) ↔ ∃ ms bits, S (move :: ms) bits) →
      (∀ move relevance next, (move, relevance, next) ∈ branches →
        relevance.IsUnion fun bits => ∃ ms, S (move :: ms) bits) →
      (∀ move relevance next, (move, relevance, next) ∈ branches → Merges next (S.after move)) →
      Merges (.fork ended branches) S

variable {S S' : SequenceSet} {t next : Trie} {move : Move} {ms : List Move}
  {bits relevance : OrdinalSet}

theorem Merges.congr (h : t.Merges S) (hiff : ∀ ms bits, S ms bits ↔ S' ms bits) : t.Merges S' := by
  obtain rfl : S = S' := funext fun ms => funext fun bits => propext (hiff ms bits)
  exact h

theorem merges_empty (h : ∀ ms bits, ¬ S ms bits) : empty.Merges S := by
  refine .fork ?_ (OrdinalSet.isUnion_empty (h [])) List.nodup_nil (fun move => ?_) nofun nofun
  · exact ⟨nofun, fun ⟨bits, hbits⟩ => absurd hbits (h [] bits)⟩
  · exact ⟨nofun, fun ⟨ms, bits, hbits⟩ => absurd hbits (h (move :: ms) bits)⟩

/-- Where a sequence ends, the trie ends with the ordinals of all that do. -/
theorem Merges.exists_ended (h : t.Merges S) (hbits : S [] bits) :
    ∃ relevance, t.ended = some relevance ∧ relevance.IsUnion (S []) := by
  cases h with
  | @fork _ ended _ hends hunion =>
      obtain ⟨relevance, rfl⟩ := Option.isSome_iff_exists.mp (hends.mpr ⟨bits, hbits⟩)
      exact ⟨relevance, rfl, hunion⟩

theorem Merges.of_ended (h : t.Merges S) (hended : t.ended = some relevance) :
    (∃ bits, S [] bits) ∧ relevance.IsUnion (S []) := by
  cases h with
  | fork hends hunion =>
      cases hended
      exact ⟨hends.mp rfl, hunion⟩

/-- A sequence goes through the branch of its first move. -/
theorem Merges.exists_branch (h : t.Merges S) (hms : S (move :: ms) bits) :
    ∃ relevance next, (move, relevance, next) ∈ t.branches ∧
      relevance.IsUnion (fun bits => ∃ ms, S (move :: ms) bits) ∧ next.Merges (S.after move) := by
  cases h with
  | fork _ _ _ hmoves hunion hnext =>
      obtain ⟨⟨_, relevance, next⟩, hmem, rfl⟩ :=
        List.mem_map.mp ((hmoves move).mpr ⟨ms, bits, hms⟩)
      exact ⟨relevance, next, hmem, hunion _ _ _ hmem, hnext _ _ _ hmem⟩

/-! ## Forks within a trie -/

/-- The trie is the other one, or one that a branch of it comes to. -/
inductive Within : Trie → Trie → Prop
  | refl (t : Trie) : Within t t
  | branch {s t next : Trie} {move : Move} {relevance : OrdinalSet} :
      (move, relevance, next) ∈ t.branches → Within s next → Within s t

/-- At every fork, the branches begin with different moves. -/
theorem Within.nodup_moves {s : Trie} (hs : s.Within t) (h : t.Merges S) :
    (s.branches.map (·.1)).Nodup := by
  induction hs generalizing S with
  | refl =>
      cases h with
      | fork _ _ hnodup => exact hnodup
  | branch hmem _ ih =>
      cases h with
      | fork _ _ _ _ _ hnext => exact ih (hnext _ _ _ hmem)

/-! ## Passing through a branch -/

section

variable {grow : Trie → Trie} {branches : List (Move × OrdinalSet × Trie)}

/-- Passing through adds a branch for the move if there is none. -/
theorem moves_through (branches : List (Move × OrdinalSet × Trie)) :
    (through move bits grow branches).map (·.1) =
      if move ∈ branches.map (·.1) then branches.map (·.1) else branches.map (·.1) ++ [move] := by
  induction branches with
  | nil => rfl
  | cons b rest ih =>
      obtain ⟨o, known, next⟩ := b
      by_cases ho : o = move
      · simp [through, ho]
      · have hne : move ≠ o := Ne.symm ho
        simp only [through, if_neg ho, List.map_cons, ih, List.mem_cons, hne, false_or]
        split <;> rfl

/-- The branch of the move has grown, from the one there was or from nothing; all others
are as they were. -/
theorem of_mem_through (hnodup : (branches.map (·.1)).Nodup) {o : Move}
    (h : (o, relevance, next) ∈ through move bits grow branches) :
    (o ≠ move ∧ (o, relevance, next) ∈ branches) ∨
      o = move ∧ ∃ known before, relevance = known.union bits ∧ next = grow before ∧
        ((move, known, before) ∈ branches ∨
          move ∉ branches.map (·.1) ∧ known = .empty ∧ before = empty) := by
  induction branches with
  | nil =>
      cases List.mem_singleton.mp h
      exact .inr ⟨rfl, .empty, empty, rfl, rfl, .inr ⟨nofun, rfl, rfl⟩⟩
  | cons b rest ih =>
      obtain ⟨o', known', next'⟩ := b
      obtain ⟨hnew, hrest⟩ := List.nodup_cons.mp hnodup
      rw [through] at h
      by_cases ho : o' = move
      · rw [if_pos ho] at h
        subst ho
        rcases List.mem_cons.mp h with hgrown | hold
        · cases hgrown
          exact .inr ⟨rfl, known', next', rfl, rfl, .inl List.mem_cons_self⟩
        · refine .inl ⟨?_, List.mem_cons_of_mem _ hold⟩
          rintro rfl
          exact hnew (List.mem_map.mpr ⟨_, hold, rfl⟩)
      · rw [if_neg ho] at h
        rcases List.mem_cons.mp h with hhead | hold
        · cases hhead
          exact .inl ⟨ho, List.mem_cons_self⟩
        · refine (ih hrest hold).imp ?_ ?_
          · exact fun ⟨hne, hmem⟩ => ⟨hne, List.mem_cons_of_mem _ hmem⟩
          · rintro ⟨rfl, known, before, hrelevance, hnext, hbefore⟩
            refine ⟨rfl, known, before, hrelevance, hnext, hbefore.imp ?_ ?_⟩
            · exact List.mem_cons_of_mem _
            · rintro ⟨hnone, hempty⟩
              refine ⟨?_, hempty⟩
              rw [List.map_cons, List.mem_cons, not_or]
              exact ⟨Ne.symm ho, hnone⟩

end

/-! ## Entering sequences -/

/-- Entering a sequence adds it to those that are merged. -/
theorem Merges.insert (h : t.Merges S) (bits : OrdinalSet) (ms : List Move) :
    (t.insert bits ms).Merges (S.adding ms bits) := by
  -- on the sequence; what follows its first move is entered in the branch of that move
  induction ms generalizing t S with
  | nil =>
      cases h with
      | fork hends hunion hnodup hmoves hbranch hnext =>
          refine .fork ?_ ?_ hnodup ?_ ?_ ?_
          · exact ⟨fun _ => ⟨bits, .inr ⟨rfl, rfl⟩⟩, fun _ => rfl⟩
          · exact (hunion.union bits).congr fun more => by simp [SequenceSet.adding]
          · intro move
            simp [hmoves move, SequenceSet.adding]
          · intro move relevance next hmem
            exact (hbranch _ _ _ hmem).congr fun more => by simp [SequenceSet.adding]
          · intro move relevance next hmem
            exact (hnext _ _ _ hmem).congr fun ms more => by
              simp [SequenceSet.adding, SequenceSet.after]
  | cons move ms ih =>
      cases h with
      | @fork _ ended branches hends hunion hnodup hmoves hbranch hnext =>
          -- what the branch of the move grows from
          have hgrown : ∀ {known before}, ((move, known, before) ∈ branches ∨
              move ∉ branches.map (·.1) ∧ known = .empty ∧ before = empty) →
              known.IsUnion (fun bits => ∃ ms, S (move :: ms) bits) ∧
                before.Merges (S.after move) := by
            rintro known before (hmem | ⟨hnone, rfl, rfl⟩)
            · exact ⟨hbranch _ _ _ hmem, hnext _ _ _ hmem⟩
            · rw [hmoves move] at hnone
              refine ⟨OrdinalSet.isUnion_empty ?_, merges_empty fun ms bits hms => ?_⟩
              · exact fun bits ⟨ms, hms⟩ => hnone ⟨ms, bits, hms⟩
              · exact hnone ⟨ms, bits, hms⟩
          refine .fork ?_ ?_ ?_ ?_ ?_ ?_
          · simp [hends, SequenceSet.adding]
          · exact hunion.congr fun more => by simp [SequenceSet.adding]
          · rw [moves_through]
            split
            · exact hnodup
            · rename_i hnew
              rw [← List.concat_eq_append]
              exact hnodup.concat hnew
          · intro o
            have hmem : o ∈ (through move bits (Trie.insert bits ms) branches).map (·.1) ↔
                o ∈ branches.map (·.1) ∨ o = move := by
              rw [moves_through]
              split
              · rename_i hold
                exact (or_iff_left_of_imp fun heq => heq ▸ hold).symm
              · rw [List.mem_append, List.mem_singleton]
            rw [hmem, hmoves o]
            constructor
            · rintro (⟨ms', more, hms⟩ | rfl)
              · exact ⟨ms', more, .inl hms⟩
              · exact ⟨ms, bits, .inr ⟨rfl, rfl⟩⟩
            · rintro ⟨ms', more, hms | ⟨heq, -⟩⟩
              · exact .inl ⟨ms', more, hms⟩
              · exact .inr (List.head_eq_of_cons_eq heq)
          · intro o relevance next hmem
            rcases of_mem_through hnodup hmem with
              ⟨hne, hold⟩ | ⟨rfl, known, before, rfl, -, hbefore⟩
            · exact (hbranch _ _ _ hold).congr fun more => by simp [SequenceSet.adding, hne]
            · refine ((hgrown hbefore).1.union bits).congr fun more => ?_
              simp [SequenceSet.adding, exists_or]
          · intro o relevance next hmem
            rcases of_mem_through hnodup hmem with
              ⟨hne, hold⟩ | ⟨rfl, known, before, -, rfl, hbefore⟩
            · exact (hnext _ _ _ hold).congr fun ms' more => by
                simp [SequenceSet.adding, SequenceSet.after, hne]
            · exact (ih (hgrown hbefore).2).congr fun ms' more => by
                simp [SequenceSet.adding, SequenceSet.after]

/-- The trie of a list of sequences is what they merge to. -/
theorem merges_ofSequences (sequences : List (List Move × OrdinalSet)) :
    (ofSequences sequences).Merges fun ms bits => (ms, bits) ∈ sequences := by
  induction sequences using List.reverseRecOn with
  | nil => exact merges_empty fun ms bits => List.not_mem_nil
  | append_singleton sequences last ih =>
      rw [ofSequences, List.foldl_append]
      refine (ih.insert last.2 last.1).congr fun ms bits => ?_
      simp [SequenceSet.adding, Prod.ext_iff]

end Trie

/-! ## The sequences of a type -/

/-- The trigger applies to changes of objects of exactly this type. -/
def Mapping.Applies {schema : Schema} (mapping : Mapping schema) (type : TypeName) (t : Trigger) :
    Prop :=
  t ∈ mapping.triggers ∧ schema.fits type t.changed = true

namespace ChangeTree

variable {schema : Schema} {mapping : Mapping schema} {type : TypeName}

/-- The sequence of a trigger: its moves and the ordinal of its dirty path. -/
def IsSequenceOf (table : PathTable) (t : Trigger) (sequence : List Move × OrdinalSet) : Prop :=
  ∃ n, sequence = (t.moves, .single n) ∧ table.paths[n]? = some t.dirty

/-- Numbering the triggers of a list adds their sequences. -/
theorem sequences_foldl {triggers : List Trigger} {table : PathTable}
    {found : List (List Move × OrdinalSet)} {result : PathTable × List (List Move × OrdinalSet)}
    (h : triggers.foldl (fun (table, found) t =>
      let (n, table) := table.number t.dirty
      (table, found ++ [(t.moves, .single n)])) (table, found) = result) :
    table.paths <+: result.1.paths ∧ ∃ added,
      result.2 = found ++ added ∧ List.Forall₂ (IsSequenceOf result.1) triggers added := by
  induction triggers generalizing table found with
  | nil =>
      subst h
      exact ⟨List.prefix_rfl, [], by simp, .nil⟩
  | cons t triggers ih =>
      obtain ⟨hpath, hkept⟩ := table.number_spec t.dirty
      cases hnumber : table.number t.dirty with
      | mk n table' =>
          simp only [hnumber] at hpath hkept
          simp only [List.foldl_cons, hnumber] at h
          obtain ⟨hrest, added, hfound, hall⟩ := ih h
          refine ⟨hkept.trans hrest, (t.moves, .single n) :: added, ?_, .cons ⟨n, rfl, ?_⟩ hall⟩
          · rw [hfound]
            simp
          · obtain ⟨more, hmore⟩ := hrest
            rw [← hmore, List.getElem?_append_left (List.getElem?_eq_some_iff.mp hpath).1]
            exact hpath

theorem sequences_spec :
    List.Forall₂ (IsSequenceOf (sequences mapping type).1)
      (mapping.triggers.filter fun t => schema.fits type t.changed)
      (sequences mapping type).2 := by
  obtain ⟨-, added, hfound, hall⟩ :=
    @sequences_foldl (mapping.triggers.filter fun t => schema.fits type t.changed) .empty []
      (sequences mapping type) rfl
  rw [List.nil_append] at hfound
  rw [hfound]
  exact hall

/-- Paths are numbered once each, and only those of triggers of the type are. -/
theorem paths_foldl {triggers : List Trigger} {table : PathTable}
    {found : List (List Move × OrdinalSet)} (hnodup : table.paths.Nodup) :
    let paths := (triggers.foldl (fun (table, found) t =>
      let (n, table) := table.number t.dirty
      (table, found ++ [(t.moves, .single n)])) (table, found)).1.paths
    paths.Nodup ∧ ∀ path ∈ paths, path ∈ table.paths ∨ ∃ t ∈ triggers, t.dirty = path := by
  induction triggers generalizing table found with
  | nil => exact ⟨hnodup, fun _ => .inl⟩
  | cons t triggers ih =>
      obtain ⟨hnumbered, hof⟩ := table.paths_number t.dirty
      obtain ⟨hrest, hall⟩ := @ih (table.number t.dirty).2
        (found ++ [(t.moves, .single (table.number t.dirty).1)]) (hnumbered hnodup)
      refine ⟨hrest, fun path hpath => ?_⟩
      rcases hall path hpath with hpath | ⟨t', ht', rfl⟩
      · exact (hof path hpath).imp_right fun heq => ⟨t, List.mem_cons_self, heq.symm⟩
      · exact .inr ⟨t', List.mem_cons_of_mem _ ht', rfl⟩

theorem nodup_paths (mapping : Mapping schema) (type : TypeName) :
    (sequences mapping type).1.paths.Nodup :=
  (paths_foldl List.nodup_nil).1

/-- Each numbered path is the dirty path of a trigger of the type. -/
theorem exists_trigger_of_path {path : String} (h : path ∈ (sequences mapping type).1.paths) :
    ∃ t, mapping.Applies type t ∧ t.dirty = path := by
  rcases (paths_foldl List.nodup_nil).2 path h with h | ⟨t, ht, rfl⟩
  · cases h
  · obtain ⟨ht, hfits⟩ := List.mem_filter.mp ht
    exact ⟨t, ⟨ht, hfits⟩, rfl⟩

/-- Each trigger of the type has its sequence. -/
theorem exists_sequence {t : Trigger} (ht : t ∈ mapping.triggers)
    (hfits : schema.fits type t.changed = true) :
    ∃ n, (t.moves, .single n) ∈ (sequences mapping type).2 ∧
      (sequences mapping type).1.paths[n]? = some t.dirty := by
  obtain ⟨_, hmem, n, rfl, hpath⟩ :=
    List.Forall₂.exists_right sequences_spec (List.mem_filter.mpr ⟨ht, hfits⟩)
  exact ⟨n, hmem, hpath⟩

/-- Each sequence is that of a trigger of the type. -/
theorem mem_sequences {ms : List Move} {bits : OrdinalSet}
    (h : (ms, bits) ∈ (sequences mapping type).2) :
    ∃ t ∈ mapping.triggers, schema.fits type t.changed = true ∧ ms = t.moves ∧
      ∃ n, bits = .single n ∧ (sequences mapping type).1.paths[n]? = some t.dirty := by
  obtain ⟨t, ht, n, heq, hpath⟩ := List.Forall₂.exists_left sequences_spec h
  obtain ⟨ht, hfits⟩ := List.mem_filter.mp ht
  cases heq
  exact ⟨t, ht, hfits, rfl, n, rfl, hpath⟩

/-- What sequences with the same moves are entered with are the ordinals of the triggers that
have these moves. -/
theorem contains_of_isUnion {ms : List Move} {relevance : OrdinalSet}
    (h : relevance.IsUnion fun bits => (ms, bits) ∈ (sequences mapping type).2) (n : Nat) :
    relevance.contains n = true ↔ ∃ t, mapping.Applies type t ∧ t.moves = ms ∧
      (sequences mapping type).1.ordinal? t.dirty = some n := by
  have hordinal := @PathTable.ordinal?_eq_some _ (nodup_paths mapping type)
  rw [h n]
  constructor
  · rintro ⟨bits, hms, hmem⟩
    obtain ⟨t, ht, hfits, rfl, n', rfl, hpath⟩ := mem_sequences hms
    obtain rfl : n' = n := by simpa using hmem
    exact ⟨t, ⟨ht, hfits⟩, rfl, hordinal.mpr hpath⟩
  · rintro ⟨t, ⟨ht, hfits⟩, rfl, hn⟩
    obtain ⟨n', hms, hpath⟩ := exists_sequence ht hfits
    obtain rfl : n' = n := Option.some.inj ((hordinal.mpr hpath).symm.trans hn)
    exact ⟨_, hms, by simp⟩

end ChangeTree

end IndexSync
