import Std.Data.ExtTreeMap
import Std.Data.ExtTreeSet

/-!
# Sorted maps and sets

Finite maps and sets that list their keys in increasing order.  They are
balanced trees up to their shape: two maps with the same look-ups are the same
map, whatever was inserted in which order.
-/

namespace IndexSync

/-- Later entries replace earlier ones of the same key. -/
abbrev SortedMap (κ : Type u) (ν : Type v) [Ord κ] := Std.ExtTreeMap κ ν compare

abbrev SortedSet (κ : Type u) [Ord κ] := Std.ExtTreeSet κ compare

namespace SortedMap

variable {κ : Type u} {ν : Type v} [Ord κ] [Std.TransOrd κ]

/-- The values, in the order of their keys. -/
def contents (m : SortedMap κ ν) : List ν := m.toList.map (·.2)

theorem mem_contents [Std.LawfulEqOrd κ] {m : SortedMap κ ν} {k : κ} {v : ν}
    (h : m[k]? = some v) : v ∈ m.contents :=
  List.mem_map.mpr ⟨(k, v), Std.ExtTreeMap.mem_toList_iff_getElem?_eq_some.mpr h, rfl⟩

theorem exists_of_mem_contents [Std.LawfulEqOrd κ] {m : SortedMap κ ν} {v : ν}
    (h : v ∈ m.contents) : ∃ k : κ, m[k]? = some v := by
  obtain ⟨⟨k, _⟩, hmem, rfl⟩ := List.mem_map.mp h
  exact ⟨k, Std.ExtTreeMap.mem_toList_iff_getElem?_eq_some.mp hmem⟩

theorem exists_of_isEmpty_eq_false {m : SortedMap κ ν} (h : m.isEmpty = false) :
    ∃ (k : κ) (v : ν), m[k]? = some v := by
  refine Classical.byContradiction fun hnone => ?_
  have hempty : m = ∅ := Std.ExtTreeMap.eq_empty_iff_forall_not_mem.mpr fun k hk =>
    hnone ⟨k, m[k], Std.ExtTreeMap.getElem?_eq_some_getElem hk⟩
  rw [Std.ExtTreeMap.isEmpty_iff.mpr hempty] at h
  cases h

end SortedMap

namespace SortedSet

variable {κ : Type u} [Ord κ] [Std.TransOrd κ]

/-- Every member of the first set is a member of the second. -/
def subset (s t : SortedSet κ) : Bool := s.toList.all t.contains

theorem subset_iff [Std.LawfulEqOrd κ] {s t : SortedSet κ} :
    s.subset t ↔ ∀ k ∈ s, k ∈ t := by
  simp [subset]

end SortedSet

end IndexSync
