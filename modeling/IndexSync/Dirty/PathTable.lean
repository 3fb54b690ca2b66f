import IndexSync.Dirty.DirtySet
import IndexSync.Dirty.OrdinalSet

/-!
# Path tables

The declared paths that matter to one type of changed object, numbered in the
order of first appearance.  A set of dirty paths becomes the set of the numbers
of the declared paths that it hits.
-/

namespace IndexSync

/-- Distinct paths; the ordinal of a path is its place. -/
structure PathTable where
  paths : List String
deriving DecidableEq, Inhabited

namespace PathTable

def empty : PathTable := ⟨[]⟩

def ordinal? (t : PathTable) (path : String) : Option Nat :=
  t.paths.idxOf? path

/-- The ordinal of a path; a new path gets the next one. -/
def number (t : PathTable) (path : String) : Nat × PathTable :=
  match t.ordinal? path with
  | some n => (n, t)
  | none => (t.paths.length, ⟨t.paths ++ [path]⟩)

/-- The ordinals of the declared paths that are hit. -/
def hitBy (t : PathTable) (dirty : DirtySet) : OrdinalSet :=
  t.paths.zipIdx.foldl (fun hit (path, n) => if dirty.hits path then hit.insert n else hit) .empty

/-- A numbered path stands at its ordinal, and all others keep theirs. -/
theorem number_spec (t : PathTable) (path : String) :
    (t.number path).2.paths[(t.number path).1]? = some path ∧
      t.paths <+: (t.number path).2.paths := by
  unfold number ordinal?
  cases h : t.paths.idxOf? path with
  | none => simp
  | some n =>
      obtain ⟨hn, hpath, -⟩ := List.idxOf?_eq_some_iff.mp h
      refine ⟨?_, List.prefix_rfl⟩
      rw [List.getElem?_eq_getElem hn]
      exact congrArg some (by simpa using hpath)

/-- Paths are numbered once each. -/
theorem paths_number (t : PathTable) (path : String) :
    (t.paths.Nodup → (t.number path).2.paths.Nodup) ∧
      ∀ other ∈ (t.number path).2.paths, other ∈ t.paths ∨ other = path := by
  unfold number ordinal?
  cases h : t.paths.idxOf? path with
  | none =>
      have hnew : path ∉ t.paths := List.idxOf?_eq_none_iff.mp h
      refine ⟨fun hnodup => ?_, fun other hother => ?_⟩
      · refine List.nodup_append.mpr ⟨hnodup, List.pairwise_singleton _ _, ?_⟩
        rintro other hother _ (_ | ⟨_, ⟨⟩⟩) rfl
        exact hnew hother
      · simpa using hother
  | some n => exact ⟨id, fun _ => .inl⟩

/-- Where paths are numbered once each, the ordinal of a path is its place. -/
theorem ordinal?_eq_some {t : PathTable} (h : t.paths.Nodup) {path : String} {n : Nat} :
    t.ordinal? path = some n ↔ t.paths[n]? = some path := by
  rw [ordinal?, List.idxOf?_eq_some_iff, List.getElem?_eq_some_iff]
  refine exists_congr fun hn => and_iff_left_of_imp ?_
  rintro rfl k hk
  exact List.pairwise_iff_getElem.mp h k n (Nat.lt_trans hk hn) hn hk

theorem contains_hitBy {t : PathTable} {dirty : DirtySet} {n : Nat} :
    (t.hitBy dirty).contains n = true ↔
      ∃ path, t.paths[n]? = some path ∧ dirty.hits path = true := by
  suffices go : ∀ (l : List (String × Nat)) (hit : OrdinalSet),
      (l.foldl (fun hit (path, n) =>
        if dirty.hits path then hit.insert n else hit) hit).contains n = true ↔
        hit.contains n = true ∨ ∃ path, (path, n) ∈ l ∧ dirty.hits path = true by
    rw [hitBy, go]
    simp [List.mk_mem_zipIdx_iff_getElem?]
  intro l
  induction l with
  | nil => simp
  | cons p l ih =>
      obtain ⟨path, k⟩ := p
      intro hit
      rw [List.foldl_cons, ih]
      show (if dirty.hits path then hit.insert k else hit).contains n = true ∨ _ ↔ _
      by_cases hp : dirty.hits path = true
      · rw [if_pos hp]
        simp only [OrdinalSet.contains_insert, Bool.or_eq_true, decide_eq_true_eq, List.mem_cons,
          Prod.mk.injEq]
        constructor
        · rintro ((h | rfl) | ⟨q, hq, hd⟩)
          · exact .inl h
          · exact .inr ⟨path, .inl ⟨rfl, rfl⟩, hp⟩
          · exact .inr ⟨q, .inr hq, hd⟩
        · rintro (h | ⟨q, ⟨rfl, rfl⟩ | hq, hd⟩)
          · exact .inl (.inl h)
          · exact .inl (.inr rfl)
          · exact .inr ⟨q, hq, hd⟩
      · rw [if_neg hp]
        simp only [List.mem_cons, Prod.mk.injEq]
        constructor
        · rintro (h | ⟨q, hq, hd⟩)
          · exact .inl h
          · exact .inr ⟨q, .inr hq, hd⟩
        · rintro (h | ⟨q, ⟨rfl, rfl⟩ | hq, hd⟩)
          · exact .inl h
          · exact absurd hd hp
          · exact .inr ⟨q, hq, hd⟩

end PathTable

end IndexSync
