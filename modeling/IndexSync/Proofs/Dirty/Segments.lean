import Mathlib.Data.List.Infix
import IndexSync.Dirty.DirtySet

/-!
# Segments of paths

Property paths overlap when one of their lists of segments begins with the other.

- `pathSegments` — the texts between the dots of a path; there is always at least one.
- `continues_iff_splitOn` — to end or go on with a dot where another path ends is to begin with
  its segments.
- `overlap_iff`, `DirtySet.hits_iff` — overlap as comparability of segments.
- `overlapBySize_eq` — it is enough to look for the path with fewer bytes at the start of the
  other.
-/

namespace IndexSync

/-- The texts between the dots of a path, the one before the first dot and the one behind the
last included. -/
def pathSegments (path : String) : List String :=
  (path.split '.').toList.map (·.copy)

/-- One of the paths has all segments of the other, and perhaps more behind them. -/
def Comparable (a b : String) : Prop :=
  pathSegments a <+: pathSegments b ∨ pathSegments b <+: pathSegments a

theorem pathSegments_eq (path : String) :
    pathSegments path = (path.toList.splitOn '.').map String.ofList :=
  String.toList_split_char

/-! ## Characters and segments -/

theorem splitOn_dot_cons (rest : List Char) :
    ('.' :: rest).splitOn '.' = [] :: rest.splitOn '.' := by
  rw [List.splitOn_cons_eq_if_modifyHead, if_pos (beq_self_eq_true _)]

theorem exists_splitOn_cons {c : Char} (hc : c ≠ '.') (rest : List Char) :
    ∃ first more, rest.splitOn '.' = first :: more ∧
      (c :: rest).splitOn '.' = (c :: first) :: more := by
  obtain ⟨first, more, hrest⟩ := List.exists_cons_of_ne_nil (List.splitOn_ne_nil '.' rest)
  refine ⟨first, more, hrest, ?_⟩
  rw [List.splitOn_cons_eq_if_modifyHead, if_neg (by simpa using hc), hrest, List.modifyHead_cons]

theorem continues_iff_splitOn {short long : List Char} :
    continues short long = true ↔ short.splitOn '.' <+: long.splitOn '.' := by
  induction short generalizing long with
  | nil =>
      rw [List.splitOn_nil]
      cases long with
      | nil => simp [continues]
      | cons d long =>
          by_cases hd : d = '.'
          · subst hd
            simp [continues, splitOn_dot_cons]
          · obtain ⟨first, more, -, hlong⟩ := exists_splitOn_cons hd long
            simp [continues, hd, hlong]
  | cons c short ih =>
      by_cases hc : c = '.'
      · subst hc
        obtain ⟨first, more, hshort⟩ := List.exists_cons_of_ne_nil (List.splitOn_ne_nil '.' short)
        rw [splitOn_dot_cons]
        cases long with
        | nil => simp [continues, hshort]
        | cons d long =>
            by_cases hd : d = '.'
            · subst hd
              simp [continues, splitOn_dot_cons, ih]
            · obtain ⟨first, more, -, hlong⟩ := exists_splitOn_cons hd long
              simp [continues, Ne.symm hd, hlong]
      · obtain ⟨first, more, hfirst, hshort⟩ := exists_splitOn_cons hc short
        rw [hshort]
        cases long with
        | nil => simp [continues]
        | cons d long =>
            by_cases hd : d = '.'
            · subst hd
              simp [continues, splitOn_dot_cons, hc]
            · obtain ⟨first', more', hfirst', hlong⟩ := exists_splitOn_cons hd long
              rw [hlong, continues, Bool.and_eq_true, ih, hfirst, hfirst']
              simp [and_assoc]

theorem continues_iff_pathSegments {a b : String} :
    continues a.toList b.toList = true ↔ pathSegments a <+: pathSegments b := by
  rw [continues_iff_splitOn, pathSegments_eq, pathSegments_eq, List.prefix_map_iff_of_injective]
  exact fun _ _ => String.ofList_injective

theorem overlap_iff (a b : String) : overlap a b = true ↔ Comparable a b := by
  rw [overlap, Bool.or_eq_true, continues_iff_pathSegments, continues_iff_pathSegments, Comparable]

example : overlap "address" "addresses" = false ∧ overlap "address." "address" = true ∧
    overlap "" ".city" = true ∧ overlap "" "city" = false := by
  decide

theorem DirtySet.hits_iff {dirty : DirtySet} {path : String} :
    dirty.hits path = true ↔ ∃ d ∈ dirty, Comparable d path := by
  simp only [hits, List.any_eq_true, Std.ExtTreeSet.mem_toList, overlap_iff]

/-! ## Fewer bytes and more bytes -/

/-- The second path begins with the first, and then ends or goes on with a dot. -/
def goesOn (short long : String) : Bool :=
  match long.dropPrefix? short with
  | some rest => rest.isEmpty || rest.startsWith '.'
  | none => false

/-- Of two paths, the one with more bytes goes on from the other. -/
def overlapBySize (a b : String) : Bool :=
  if a.utf8ByteSize ≤ b.utf8ByteSize then goesOn a b else goesOn b a

theorem continues_append (short rest : List Char) :
    continues short (short ++ rest) = (rest.isEmpty || rest.head? == some '.') := by
  induction short with
  | nil => cases rest <;> simp [continues, beq_eq_decide]
  | cons c short ih => simpa [continues] using ih

theorem prefix_of_continues {short long : List Char} (h : continues short long = true) :
    short <+: long := by
  induction short generalizing long with
  | nil => exact List.nil_prefix
  | cons c short ih =>
      cases long with
      | nil => simp [continues] at h
      | cons d long =>
          rw [continues, Bool.and_eq_true, decide_eq_true_eq] at h
          rw [h.1, List.cons_prefix_cons]
          exact ⟨rfl, ih h.2⟩

theorem goesOn_eq (short long : String) :
    goesOn short long = continues short.toList long.toList := by
  unfold goesOn
  split
  · rename_i rest hrest
    have hempty : rest.isEmpty = rest.copy.toList.isEmpty := by
      rw [Bool.eq_iff_iff, ← String.Slice.copy_eq_empty_iff, List.isEmpty_iff,
        String.toList_eq_nil_iff]
    rw [String.eq_append_of_dropPrefix?_string_eq_some hrest, String.toList_append,
      continues_append, String.Slice.startsWith_char_eq_head?, hempty]
  · rename_i hnone
    rw [String.dropPrefix?_eq_dropPrefix?_toSlice, String.Slice.dropPrefix?_eq_none_iff,
      String.startsWith_toSlice, String.startsWith_string_eq_false_iff] at hnone
    symm
    rw [← Bool.not_eq_true]
    exact fun h => hnone (prefix_of_continues h)

/-- A path that goes on from one with as many bytes or more is the same. -/
theorem eq_of_continues {a b : String} (hsize : a.utf8ByteSize ≤ b.utf8ByteSize)
    (h : continues b.toList a.toList = true) : a = b := by
  obtain ⟨rest, hrest⟩ := prefix_of_continues h
  have ha : a = b ++ String.ofList rest := by
    rw [← String.toList_inj, String.toList_append, String.toList_ofList, hrest]
  have hzero : (String.ofList rest).utf8ByteSize = 0 := by
    rw [ha, String.utf8ByteSize_append] at hsize
    omega
  rw [ha, String.utf8ByteSize_eq_zero_iff.mp hzero, String.append_empty]

theorem overlap_comm (a b : String) : overlap a b = overlap b a :=
  Bool.or_comm ..

theorem overlap_eq_goesOn {a b : String} (hsize : a.utf8ByteSize ≤ b.utf8ByteSize) :
    overlap a b = goesOn a b := by
  rw [overlap, goesOn_eq]
  refine Bool.or_eq_left_iff_imp.mpr fun h => ?_
  have hab := eq_of_continues hsize h
  rwa [hab] at h ⊢

/-- Overlap is found by comparing the numbers of bytes, and then looking for the path with
fewer at the start of the other. -/
theorem overlapBySize_eq (a b : String) : overlapBySize a b = overlap a b := by
  unfold overlapBySize
  split
  · rename_i hsize
    exact (overlap_eq_goesOn hsize).symm
  · rename_i hsize
    rw [overlap_comm]
    exact (overlap_eq_goesOn (Nat.le_of_not_le hsize)).symm

end IndexSync
