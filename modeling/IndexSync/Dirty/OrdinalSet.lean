/-!
# Sets of ordinals

A finite set of natural numbers, kept as the number that has its members for
bits.

- `contains` — the view that every operation is read through; two sets with the
  same members are the same set (`OrdinalSet.ext_contains`).
- `toList` — the members in increasing order, found by halving.
-/

namespace IndexSync

structure OrdinalSet where
  bits : Nat
deriving DecidableEq, Inhabited

namespace OrdinalSet

def empty : OrdinalSet := ⟨0⟩

def single (n : Nat) : OrdinalSet := ⟨1 <<< n⟩

def contains (s : OrdinalSet) (n : Nat) : Bool := s.bits.testBit n

def union (s t : OrdinalSet) : OrdinalSet := ⟨s.bits ||| t.bits⟩

def insert (s : OrdinalSet) (n : Nat) : OrdinalSet := s.union (single n)

/-- The sets share a member. -/
def intersects (s t : OrdinalSet) : Bool := s.bits &&& t.bits != 0

/-- Every member of the first set is one of the second. -/
def subset (s t : OrdinalSet) : Bool := s.bits ||| t.bits == t.bits

def isEmpty (s : OrdinalSet) : Bool := s.bits == 0

/-- The places of the bits of a number below `2 ^ (2 ^ height)`, counted from
`offset`, in increasing order. -/
def placesFrom : (height offset bits : Nat) → List Nat
  | 0, offset, bits => if bits.testBit 0 then [offset] else []
  | height + 1, offset, bits =>
    let half := 1 <<< height
    if bits = 0 then []
    else
      placesFrom height offset (bits &&& (1 <<< half - 1)) ++
        placesFrom height (offset + half) (bits >>> half)

/-- The members in increasing order. -/
def toList (s : OrdinalSet) : List Nat :=
  placesFrom (s.bits.log2.log2 + 1) 0 s.bits

def size (s : OrdinalSet) : Nat := s.toList.length

/-! ## Members -/

theorem ext_contains {s t : OrdinalSet} (h : ∀ n, s.contains n = t.contains n) : s = t := by
  obtain ⟨a⟩ := s
  obtain ⟨b⟩ := t
  exact congrArg mk (Nat.eq_of_testBit_eq h)

@[simp] theorem contains_empty (n : Nat) : empty.contains n = false :=
  Nat.zero_testBit n

@[simp] theorem contains_single (k n : Nat) : (single k).contains n = decide (k = n) := by
  rw [contains, single, Nat.testBit_shiftLeft]
  by_cases h : k = n
  · simp [h]
  · rcases Nat.lt_or_gt_of_ne h with h | h
    · have h1 : Nat.testBit 1 (n - k) = false :=
        Nat.testBit_lt_two_pow (Nat.one_lt_two_pow (by omega))
      simp [h1, Nat.ne_of_lt h]
    · simp [Nat.not_le_of_gt h, Nat.ne_of_gt h]

@[simp] theorem contains_union (s t : OrdinalSet) (n : Nat) :
    (s.union t).contains n = (s.contains n || t.contains n) :=
  Nat.testBit_or ..

@[simp] theorem contains_insert (s : OrdinalSet) (k n : Nat) :
    (s.insert k).contains n = (s.contains n || decide (k = n)) := by
  rw [insert, contains_union, contains_single]

@[simp] theorem subset_iff {s t : OrdinalSet} :
    s.subset t = true ↔ ∀ n, s.contains n = true → t.contains n = true := by
  rw [subset, beq_iff_eq]
  constructor
  · intro h n hn
    rw [contains, ← h, Nat.testBit_or]
    simp only [contains] at hn
    simp [hn]
  · intro h
    apply Nat.eq_of_testBit_eq
    intro n
    rw [Nat.testBit_or]
    cases hs : s.bits.testBit n with
    | false => simp
    | true =>
        have ht : t.bits.testBit n = true := h n hs
        simp [ht]

theorem subset_refl (s : OrdinalSet) : s.subset s = true :=
  subset_iff.mpr fun _ h => h

theorem subset_trans {s t u : OrdinalSet} (h : s.subset t = true) (h' : t.subset u = true) :
    s.subset u = true :=
  subset_iff.mpr fun n hn => subset_iff.mp h' n (subset_iff.mp h n hn)

@[simp] theorem intersects_iff {s t : OrdinalSet} :
    s.intersects t = true ↔ ∃ n, s.contains n = true ∧ t.contains n = true := by
  rw [intersects, bne_iff_ne]
  constructor
  · intro h
    obtain ⟨n, hn⟩ := Nat.exists_testBit_of_ne_zero h
    rw [Nat.testBit_and, Bool.and_eq_true] at hn
    exact ⟨n, hn⟩
  · rintro ⟨n, hs, ht⟩ h
    have hn : (s.bits &&& t.bits).testBit n = true := by
      rw [Nat.testBit_and, Bool.and_eq_true]
      exact ⟨hs, ht⟩
    rw [h, Nat.zero_testBit] at hn
    cases hn

end OrdinalSet

end IndexSync
