import Mathlib.Data.List.Forall2
import Mathlib.Data.List.Infix
import IndexSync.Dirty.PathTable
import IndexSync.Proofs.Dirty.Segments

/-!
# Numbering paths

Whatever paths a table is asked to number, it numbers those that differ in the order in which
they first came, and hits them segment by segment.

- `numberAll` — the ordinals that paths are given one after another, and the table then.
- `PathTable.paths_numberAll` — the table holds what was asked for, without repetitions.
- `PathTable.Numbers`, `PathTable.numbers_after` — so paths and ordinals are each other's.
- `IndexedTable`, `IndexedTable.number_inStep` — paths next to an index that looks them up; the
  two stay in step.
- `PathTable.numbered_and_hit_by_segments` — all of it, and the ordinals that dirty paths hit.
-/

namespace IndexSync

/-- The ordinals that are given to some paths, one after another, and the table then. -/
def numberAll {τ : Type} (number : τ → String → Nat × τ) : τ → List String → List Nat × τ
  | t, [] => ([], t)
  | t, path :: paths =>
    let (n, t) := number t path
    let (ns, t) := numberAll number t paths
    (n :: ns, t)

section

variable {τ τ' : Type} {number : τ → String → Nat × τ} {number' : τ' → String → Nat × τ'}

theorem numberAll_cons (t : τ) (path : String) (paths : List String) :
    numberAll number t (path :: paths) =
      ((number t path).1 :: (numberAll number (number t path).2 paths).1,
        (numberAll number (number t path).2 paths).2) :=
  rfl

/-- Tables that are numbered alike one path at a time are numbered alike altogether. -/
theorem numberAll_rel {R : τ → τ' → Prop}
    (hnumber : ∀ t t' path, R t t' → (number t path).1 = (number' t' path).1 ∧
      R (number t path).2 (number' t' path).2)
    {t : τ} {t' : τ'} (h : R t t') (paths : List String) :
    (numberAll number t paths).1 = (numberAll number' t' paths).1 ∧
      R (numberAll number t paths).2 (numberAll number' t' paths).2 := by
  induction paths generalizing t t' with
  | nil => exact ⟨rfl, h⟩
  | cons path paths ih =>
      obtain ⟨hn, hnext⟩ := hnumber t t' path h
      obtain ⟨hns, hlast⟩ := ih hnext
      rw [numberAll_cons, numberAll_cons]
      exact ⟨congrArg₂ List.cons hn hns, hlast⟩

end

/-- What comes last is kept if it did not come before. -/
theorem eraseDups_concat (paths : List String) (path : String) :
    (paths ++ [path]).eraseDups =
      if path ∈ paths then paths.eraseDups else paths.eraseDups ++ [path] := by
  rw [List.eraseDups_append]
  by_cases h : path ∈ paths <;> simp [List.removeAll, h, List.eraseDups_cons]

/-- What is new at the end is found there. -/
theorem idxOf?_concat {paths : List String} {path : String} (h : path ∉ paths) (other : String) :
    (paths ++ [path]).idxOf? other =
      if path = other then some paths.length else paths.idxOf? other := by
  induction paths with
  | nil => simp [List.idxOf?_cons]
  | cons first paths ih =>
      rw [List.mem_cons, not_or] at h
      rw [List.cons_append, List.idxOf?_cons, List.idxOf?_cons, ih h.2]
      by_cases hother : path = other
      · have hfirst : (first == other) = false := beq_false_of_ne (hother ▸ Ne.symm h.1)
        simp [hother, hfirst]
      · simp [hother]

namespace PathTable

variable {t : PathTable} {path : String} {n : Nat}

theorem paths_number_eq (t : PathTable) (path : String) :
    (t.number path).2.paths = if path ∈ t.paths then t.paths else t.paths ++ [path] := by
  unfold number ordinal?
  cases h : t.paths.idxOf? path with
  | none => rw [if_neg (List.idxOf?_eq_none_iff.mp h)]
  | some n =>
      have hmem : path ∈ t.paths := List.isSome_idxOf?.mp (by rw [h]; rfl)
      rw [if_pos hmem]

theorem paths_numberAll (before : List String) (h : t.paths = before.eraseDups)
    (asked : List String) :
    (numberAll number t asked).2.paths = (before ++ asked).eraseDups := by
  induction asked generalizing t before with
  | nil => rw [List.append_nil, ← h, numberAll]
  | cons path asked ih =>
      have hnext : (t.number path).2.paths = (before ++ [path]).eraseDups := by
        rw [paths_number_eq, eraseDups_concat, h]
        simp only [List.mem_eraseDups]
      rw [numberAll_cons, ih _ hnext, List.append_assoc]
      rfl

theorem nodup_numberAll (h : t.paths.Nodup) (asked : List String) :
    (numberAll number t asked).2.paths.Nodup := by
  induction asked generalizing t with
  | nil => exact h
  | cons path asked ih => exact ih ((paths_number t path).1 h)

/-- Paths keep the ordinals that they are given. -/
theorem numberAll_places (t : PathTable) (asked : List String) :
    t.paths <+: (numberAll number t asked).2.paths ∧
      List.Forall₂ (fun path n => (numberAll number t asked).2.paths[n]? = some path) asked
        (numberAll number t asked).1 := by
  induction asked generalizing t with
  | nil => exact ⟨List.prefix_rfl, .nil⟩
  | cons path asked ih =>
      obtain ⟨hplace, hkept⟩ := t.number_spec path
      obtain ⟨hlast, hrest⟩ := ih (t.number path).2
      obtain ⟨hlt, hpath⟩ := List.getElem?_eq_some_iff.mp hplace
      have hstays := List.prefix_iff_getElem?.mp hlast _ hlt
      rw [hpath] at hstays
      rw [numberAll_cons]
      exact ⟨hkept.trans hlast, .cons hstays hrest⟩

/-- The paths asked for are numbered in the order in which they first came, each once; asking
for one again gives the ordinal that it has and changes nothing. -/
structure Numbers (t : PathTable) (asked : List String) : Prop where
  order : t.paths = asked.eraseDups
  nodup : t.paths.Nodup
  place : ∀ path n, t.ordinal? path = some n ↔ t.paths[n]? = some path
  covers : ∀ path, (∃ n, t.ordinal? path = some n) ↔ path ∈ asked
  used : ∀ n, (∃ path, t.ordinal? path = some n) ↔ n < t.paths.length
  agrees : ∀ path, (t.number path).2.ordinal? path = some (t.number path).1
  again : ∀ path ∈ asked, (t.number path).2 = t

theorem number_of_mem (h : path ∈ t.paths) : (t.number path).2 = t := by
  obtain ⟨n, hn⟩ := Option.isSome_iff_exists.mp (List.isSome_idxOf?.mpr h)
  rw [number, ordinal?, hn]

theorem ordinal?_number (h : t.paths.Nodup) (path : String) :
    (t.number path).2.ordinal? path = some (t.number path).1 :=
  (ordinal?_eq_some ((paths_number t path).1 h)).mpr (t.number_spec path).1

theorem numbers_of_order {asked : List String} (horder : t.paths = asked.eraseDups)
    (hnodup : t.paths.Nodup) : t.Numbers asked where
  order := horder
  nodup := hnodup
  place _ _ := ordinal?_eq_some hnodup
  covers path := by
    rw [← List.mem_eraseDups, ← horder, ← List.isSome_idxOf?, Option.isSome_iff_exists]
    rfl
  used n := by
    simp only [ordinal?_eq_some hnodup]
    rw [← Option.isSome_iff_exists]
    simp
  agrees := ordinal?_number hnodup
  again path hpath := by
    apply number_of_mem
    rwa [horder, List.mem_eraseDups]

/-- The ordinals that some paths are given by a table that is empty at first. -/
def given (asked : List String) : List Nat := (numberAll number empty asked).1

/-- The table that some paths were numbered in. -/
def after (asked : List String) : PathTable := (numberAll number empty asked).2

theorem numbers_after (asked : List String) : (after asked).Numbers asked :=
  numbers_of_order (paths_numberAll [] rfl asked) (nodup_numberAll List.nodup_nil asked)

/-- The ordinals given are those that can be looked up in the end. -/
theorem map_ordinal?_after (asked : List String) :
    asked.map (after asked).ordinal? = (given asked).map some := by
  have hnodup := (numbers_after asked).nodup
  rw [← List.forall₂_eq_eq_eq, List.forall₂_map_left_iff, List.forall₂_map_right_iff]
  exact (numberAll_places empty asked).2.imp fun _ _ => (ordinal?_eq_some hnodup).mpr

end PathTable

/-! ## Looking up in an index -/

/-- Numbered paths, and an index that has the ordinal of each. -/
structure IndexedTable where
  paths : List String
  index : SortedMap String Nat

namespace IndexedTable

variable {t : IndexedTable}

def empty : IndexedTable := ⟨[], ∅⟩

def ordinal? (t : IndexedTable) (path : String) : Option Nat := t.index[path]?

def number (t : IndexedTable) (path : String) : Nat × IndexedTable :=
  match t.ordinal? path with
  | some n => (n, t)
  | none =>
    (t.paths.length, ⟨t.paths ++ [path], t.index.insert path t.paths.length⟩)

/-- The table that goes without an index has the same paths, and finds in them what the index
has. -/
def InStep (t : IndexedTable) (t' : PathTable) : Prop :=
  t.paths = t'.paths ∧ ∀ path, t.ordinal? path = t'.ordinal? path

theorem number_inStep (t : IndexedTable) (t' : PathTable) (path : String) (h : t.InStep t') :
    (t.number path).1 = (t'.number path).1 ∧ (t.number path).2.InStep (t'.number path).2 := by
  obtain ⟨hpaths, hordinal⟩ := h
  unfold number PathTable.number
  rw [hordinal path]
  cases hpath : t'.ordinal? path with
  | some n => exact ⟨rfl, hpaths, hordinal⟩
  | none =>
      -- the index gets the place at which the path is put
      have hnew : path ∉ t'.paths := List.idxOf?_eq_none_iff.mp hpath
      dsimp only
      refine ⟨by rw [hpaths], by rw [hpaths], fun other => ?_⟩
      rw [ordinal?, PathTable.ordinal?, idxOf?_concat hnew, Std.ExtTreeMap.getElem?_insert, hpaths]
      simp only [Std.compare_eq_iff_eq]
      exact if_congr Iff.rfl rfl (hordinal other)

end IndexedTable

/-! ## Ordinals that are hit -/

theorem PathTable.contains_hitBy_iff {t : PathTable} {dirty : DirtySet} {n : Nat} :
    (t.hitBy dirty).contains n = true ↔
      ∃ _ : n < t.paths.length, ∃ d ∈ dirty, Comparable d t.paths[n] := by
  rw [contains_hitBy]
  constructor
  · rintro ⟨path, hpath, hhit⟩
    obtain ⟨hlt, rfl⟩ := List.getElem?_eq_some_iff.mp hpath
    exact ⟨hlt, DirtySet.hits_iff.mp hhit⟩
  · rintro ⟨hlt, hhit⟩
    exact ⟨_, List.getElem?_eq_getElem hlt, DirtySet.hits_iff.mpr hhit⟩

namespace PathTable

/-- Paths overlap when the segments of one are the first segments of the other, and it is enough
to look for the path with fewer bytes at the start of the other.  Whatever paths a table was asked
to number, it is a bijection between them and the ordinals below its length, in the order in which
they first came; the ordinals that were given are those that it looks up, with or without an
index; and those hit by dirty paths are the ordinals of the paths comparable with one of them. -/
theorem numbered_and_hit_by_segments (asked : List String) (dirty : DirtySet) :
    (∀ a b, overlap a b = true ↔ Comparable a b) ∧
    (∀ a b, overlapBySize a b = overlap a b) ∧
    (after asked).Numbers asked ∧
    asked.map (after asked).ordinal? = (given asked).map some ∧
    (numberAll IndexedTable.number .empty asked).1 = given asked ∧
    (numberAll IndexedTable.number .empty asked).2.InStep (after asked) ∧
    ∀ n, ((after asked).hitBy dirty).contains n = true ↔
      ∃ _ : n < (after asked).paths.length, ∃ d ∈ dirty, Comparable d (after asked).paths[n] := by
  have hempty : IndexedTable.empty.InStep empty := ⟨rfl, fun _ => rfl⟩
  obtain ⟨hgiven, hstep⟩ := numberAll_rel IndexedTable.number_inStep hempty asked
  exact ⟨overlap_iff, overlapBySize_eq, numbers_after asked, map_ordinal?_after asked, hgiven,
    hstep, fun _ => contains_hitBy_iff⟩

end PathTable

end IndexSync
