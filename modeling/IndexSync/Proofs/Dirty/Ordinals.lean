import Mathlib.Algebra.Ring.Nat
import Mathlib.Data.Finset.Card
import Mathlib.Data.Finset.Lattice.Basic
import Mathlib.Order.Disjoint
import IndexSync.Dirty.OrdinalSet

/-!
# Sets of ordinals as finite sets

However sets of ordinals are kept, calls that build them come to the finite sets that the same
calls build, and everything they are asked is answered as for these.

- `SetCall`, `SetBuilder.afterAll` — the calls that build numbered sets, and the sets that are
  there after some of them.
- `SetOps.Lawful` — every operation is read through the members; `Lawful.answers_afterAll` —
  which is all that the answers depend on.
- `OrdinalSet.mem_placesFrom`, `OrdinalSet.pairwise_placesFrom` — halving a number finds its
  bits, the lower ones first.
- `OrdinalSet.ops_lawful` — so the bits of one number keep a set of ordinals.
-/

namespace IndexSync

variable {α β : Type}

/-! ## Calls -/

/-- What sets are built with. -/
structure SetBuilder (α : Type) where
  empty : α
  single : Nat → α
  insert : α → Nat → α
  union : α → α → α

/-- A call on numbered sets; the first number is that of the set that changes. -/
inductive SetCall where
  | clear (i : Nat)
  | single (i n : Nat)
  | insert (i n : Nat)
  | union (i j : Nat)

namespace SetBuilder

def after (b : SetBuilder α) (sets : Nat → α) : SetCall → Nat → α
  | .clear i => Function.update sets i b.empty
  | .single i n => Function.update sets i (b.single n)
  | .insert i n => Function.update sets i (b.insert (sets i) n)
  | .union i j => Function.update sets i (b.union (sets i) (sets j))

/-- The sets after some calls, first to last; all are empty at first. -/
def afterAll (b : SetBuilder α) (calls : List SetCall) : Nat → α :=
  calls.foldl b.after fun _ => b.empty

/-- What holds between sets that are built alike. -/
structure Related (b : SetBuilder α) (b' : SetBuilder β) (R : α → β → Prop) : Prop where
  empty : R b.empty b'.empty
  single : ∀ n, R (b.single n) (b'.single n)
  insert : ∀ s s' n, R s s' → R (b.insert s n) (b'.insert s' n)
  union : ∀ s s' t t', R s s' → R t t' → R (b.union s t) (b'.union s' t')

section

variable {b : SetBuilder α} {b' : SetBuilder β} {R : α → β → Prop} {sets : Nat → α}
  {sets' : Nat → β}

theorem rel_update {s : α} {s' : β} (hs : R s s') (hsets : ∀ i, R (sets i) (sets' i)) (k i : Nat) :
    R (Function.update sets k s i) (Function.update sets' k s' i) := by
  by_cases h : i = k
  · subst h
    rwa [Function.update_self, Function.update_self]
  · rw [Function.update_of_ne h, Function.update_of_ne h]
    exact hsets i

theorem Related.after (h : Related b b' R) (hsets : ∀ i, R (sets i) (sets' i)) (call : SetCall) :
    ∀ i, R (b.after sets call i) (b'.after sets' call i) := by
  cases call with
  | clear k => exact rel_update h.empty hsets k
  | single k n => exact rel_update (h.single n) hsets k
  | insert k n => exact rel_update (h.insert _ _ n (hsets k)) hsets k
  | union k j => exact rel_update (h.union _ _ _ _ (hsets k) (hsets j)) hsets k

theorem Related.afterAll (h : Related b b' R) (calls : List SetCall) (i : Nat) :
    R (b.afterAll calls i) (b'.afterAll calls i) := by
  suffices go : ∀ (calls : List SetCall) (sets : Nat → α) (sets' : Nat → β),
      (∀ i, R (sets i) (sets' i)) →
        ∀ i, R (calls.foldl b.after sets i) (calls.foldl b'.after sets' i) from
    go calls _ _ (fun _ => h.empty) i
  intro calls
  induction calls with
  | nil =>
      intro sets sets' hsets
      exact hsets
  | cons call calls ih =>
      intro sets sets' hsets
      exact ih _ _ (h.after hsets call)

end

end SetBuilder

/-- Finite sets, to compare with. -/
def finsets : SetBuilder (Finset ℕ) where
  empty := ∅
  single n := {n}
  insert s n := Insert.insert n s
  union s t := s ∪ t

/-! ## Questions -/

/-- What sets of ordinals are built with, and what they are asked. -/
structure SetOps (α : Type) extends SetBuilder α where
  contains : α → Nat → Bool
  intersects : α → α → Bool
  subset : α → α → Bool
  equal : α → α → Bool
  isEmpty : α → Bool
  size : α → Nat
  toList : α → List Nat

namespace SetOps

/-- Every question about two sets is answered as for two finite sets. -/
structure Answers (ops : SetOps α) (s t : α) (a b : Finset ℕ) : Prop where
  contains : ∀ n, ops.contains s n = true ↔ n ∈ a
  intersects : ops.intersects s t = true ↔ ¬ Disjoint a b
  subset : ops.subset s t = true ↔ a ⊆ b
  equal : ops.equal s t = true ↔ a = b
  isEmpty : ops.isEmpty s = true ↔ a = ∅
  size : ops.size s = a.card
  increasing : (ops.toList s).Pairwise (· < ·)
  listed : ∀ n, n ∈ ops.toList s ↔ n ∈ a

/-- Every operation is read through the members of the sets. -/
structure Lawful (ops : SetOps α) : Prop where
  contains_empty : ∀ n, ops.contains ops.empty n = false
  contains_single : ∀ k n, ops.contains (ops.single k) n = decide (k = n)
  contains_insert : ∀ s k n,
    ops.contains (ops.insert s k) n = (ops.contains s n || decide (k = n))
  contains_union : ∀ s t n,
    ops.contains (ops.union s t) n = (ops.contains s n || ops.contains t n)
  intersects_iff : ∀ s t,
    ops.intersects s t = true ↔ ∃ n, ops.contains s n = true ∧ ops.contains t n = true
  subset_iff : ∀ s t,
    ops.subset s t = true ↔ ∀ n, ops.contains s n = true → ops.contains t n = true
  equal_iff : ∀ s t, ops.equal s t = true ↔ ∀ n, ops.contains s n = ops.contains t n
  isEmpty_iff : ∀ s, ops.isEmpty s = true ↔ ∀ n, ops.contains s n = false
  mem_toList : ∀ s n, n ∈ ops.toList s ↔ ops.contains s n = true
  pairwise_toList : ∀ s, (ops.toList s).Pairwise (· < ·)
  size_eq : ∀ s, ops.size s = (ops.toList s).length

/-- The set has the members of the finite set. -/
def Represents (ops : SetOps α) (s : α) (a : Finset ℕ) : Prop :=
  ∀ n, ops.contains s n = true ↔ n ∈ a

namespace Lawful

variable {ops : SetOps α} {s t : α} {a b : Finset ℕ}

theorem related_finsets (h : ops.Lawful) :
    ops.toSetBuilder.Related finsets ops.Represents where
  empty n := by simp [h.contains_empty, finsets]
  single k n := by simp [h.contains_single, finsets, eq_comm]
  insert s a k hs n := by
    rw [h.contains_insert, Bool.or_eq_true, hs n, decide_eq_true_eq]
    simp [finsets, or_comm, eq_comm]
  union s a t b hs ht n := by
    rw [h.contains_union, Bool.or_eq_true, hs n, ht n]
    exact Finset.mem_union.symm

theorem toFinset_toList (h : ops.Lawful) (hs : ops.Represents s a) :
    (ops.toList s).toFinset = a := by
  ext n
  rw [List.mem_toFinset, h.mem_toList, hs n]

theorem size_eq_card (h : ops.Lawful) (hs : ops.Represents s a) : ops.size s = a.card := by
  have hnodup : (ops.toList s).Nodup := (h.pairwise_toList s).imp Nat.ne_of_lt
  rw [h.size_eq, ← List.toFinset_card_of_nodup hnodup, h.toFinset_toList hs]

theorem answers (h : ops.Lawful) (hs : ops.Represents s a) (ht : ops.Represents t b) :
    ops.Answers s t a b where
  contains := hs
  intersects := by
    rw [h.intersects_iff, Finset.not_disjoint_iff]
    exact exists_congr fun n => and_congr (hs n) (ht n)
  subset := by
    rw [h.subset_iff]
    exact forall_congr' fun n => imp_congr (hs n) (ht n)
  equal := by
    rw [h.equal_iff, Finset.ext_iff]
    refine forall_congr' fun n => ?_
    rw [Bool.eq_iff_iff, hs n, ht n]
  isEmpty := by
    rw [h.isEmpty_iff, Finset.eq_empty_iff_forall_notMem]
    refine forall_congr' fun n => ?_
    rw [← hs n, Bool.not_eq_true]
  size := h.size_eq_card hs
  increasing := h.pairwise_toList s
  listed n := (h.mem_toList s n).trans (hs n)

theorem represents_afterAll (h : ops.Lawful) (calls : List SetCall) (i : Nat) :
    ops.Represents (ops.afterAll calls i) (finsets.afterAll calls i) :=
  h.related_finsets.afterAll calls i

/-- Sets that any calls have built answer as the finite sets that the same calls build. -/
theorem answers_afterAll (h : ops.Lawful) (calls : List SetCall) (i j : Nat) :
    ops.Answers (ops.afterAll calls i) (ops.afterAll calls j) (finsets.afterAll calls i)
      (finsets.afterAll calls j) :=
  h.answers (h.represents_afterAll calls i) (h.represents_afterAll calls j)

end Lawful

end SetOps

/-! ## The bits of a number -/

namespace OrdinalSet

theorem shiftRight_lt {height bits : Nat} (h : bits < 2 ^ 2 ^ (height + 1)) :
    bits >>> 2 ^ height < 2 ^ 2 ^ height := by
  rw [Nat.shiftRight_eq_div_pow]
  apply Nat.div_lt_of_lt_mul
  rwa [← Nat.pow_add, ← Nat.mul_two, ← Nat.pow_succ]

/-- A number below `2 ^ 2 ^ height` is taken apart into its lower and its upper half. -/
theorem placesFrom_succ (height offset bits : Nat) :
    placesFrom (height + 1) offset bits =
      if bits = 0 then []
      else placesFrom height offset (bits % 2 ^ 2 ^ height) ++
        placesFrom height (offset + 2 ^ height) (bits >>> 2 ^ height) := by
  rw [placesFrom, Nat.one_shiftLeft, Nat.one_shiftLeft, Nat.and_two_pow_sub_one_eq_mod]

theorem mem_placesFrom {height offset bits n : Nat} (h : bits < 2 ^ 2 ^ height) :
    n ∈ placesFrom height offset bits ↔ offset ≤ n ∧ bits.testBit (n - offset) = true := by
  induction height generalizing offset bits with
  | zero =>
      -- the number is 0 or 1, so no bit but the lowest can be set
      have hplace : bits.testBit (n - offset) = true → n - offset = 0 := by
        intro hbit
        by_contra hne
        have hbits : bits < 2 ^ (n - offset) :=
          Nat.lt_of_lt_of_le h (Nat.pow_le_pow_right (by omega) (by omega))
        rw [Nat.testBit_lt_two_pow hbits] at hbit
        cases hbit
      rw [placesFrom]
      constructor
      · intro hn
        split at hn
        · rename_i hbit
          cases List.mem_singleton.mp hn
          exact ⟨Nat.le_refl _, by rwa [Nat.sub_self]⟩
        · cases hn
      · rintro ⟨hle, hbit⟩
        have hzero := hplace hbit
        rw [hzero] at hbit
        rw [if_pos hbit, List.mem_singleton]
        omega
  | succ height ih =>
      rw [placesFrom_succ]
      split
      · rename_i hzero
        simp [hzero]
      · have hlow : bits % 2 ^ 2 ^ height < 2 ^ 2 ^ height := Nat.mod_lt _ (Nat.two_pow_pos _)
        rw [List.mem_append, ih hlow, ih (shiftRight_lt h), Nat.testBit_mod_two_pow,
          Nat.testBit_shiftRight, Bool.and_eq_true, decide_eq_true_eq]
        -- a place is in the lower half or in the upper one
        constructor
        · rintro (⟨hle, -, hbit⟩ | ⟨hle, hbit⟩)
          · exact ⟨hle, hbit⟩
          · have hhalf : 2 ^ height ≤ n - offset := Nat.le_sub_of_add_le' hle
            rw [Nat.sub_add_eq, Nat.add_sub_cancel' hhalf] at hbit
            exact ⟨Nat.le_of_add_right_le hle, hbit⟩
        · rintro ⟨hle, hbit⟩
          rcases Nat.lt_or_ge (n - offset) (2 ^ height) with hhalf | hhalf
          · exact .inl ⟨hle, hhalf, hbit⟩
          · rw [Nat.sub_add_eq, Nat.add_sub_cancel' hhalf]
            exact .inr ⟨Nat.add_le_of_le_sub' hle hhalf, hbit⟩

theorem pairwise_placesFrom {height offset bits : Nat} (h : bits < 2 ^ 2 ^ height) :
    (placesFrom height offset bits).Pairwise (· < ·) := by
  induction height generalizing offset bits with
  | zero =>
      rw [placesFrom]
      split
      · exact List.pairwise_singleton _ _
      · exact List.Pairwise.nil
  | succ height ih =>
      rw [placesFrom_succ]
      split
      · exact List.Pairwise.nil
      · have hlow : bits % 2 ^ 2 ^ height < 2 ^ 2 ^ height := Nat.mod_lt _ (Nat.two_pow_pos _)
        have hhigh := shiftRight_lt h
        refine List.pairwise_append.mpr ⟨ih hlow, ih hhigh, fun m hm n hn => ?_⟩
        obtain ⟨-, hm⟩ := (mem_placesFrom hlow).mp hm
        obtain ⟨hn, -⟩ := (mem_placesFrom hhigh).mp hn
        rw [Nat.testBit_mod_two_pow, Bool.and_eq_true, decide_eq_true_eq] at hm
        omega

/-- The height that the members are listed with is enough. -/
theorem bits_lt (s : OrdinalSet) : s.bits < 2 ^ 2 ^ (s.bits.log2.log2 + 1) := by
  have hbits : s.bits < 2 ^ (s.bits.log2 + 1) := Nat.lt_log2_self
  have hlog : s.bits.log2 < 2 ^ (s.bits.log2.log2 + 1) := Nat.lt_log2_self
  exact Nat.lt_of_lt_of_le hbits (Nat.pow_le_pow_right (by omega) hlog)

theorem mem_toList {s : OrdinalSet} {n : Nat} : n ∈ s.toList ↔ s.contains n = true := by
  rw [toList, mem_placesFrom s.bits_lt, contains]
  simp

theorem pairwise_toList (s : OrdinalSet) : s.toList.Pairwise (· < ·) :=
  pairwise_placesFrom s.bits_lt

theorem eq_iff_contains {s t : OrdinalSet} : s = t ↔ ∀ n, s.contains n = t.contains n :=
  ⟨fun h _ => by rw [h], ext_contains⟩

theorem isEmpty_iff {s : OrdinalSet} : s.isEmpty = true ↔ ∀ n, s.contains n = false := by
  have hempty : s.isEmpty = true ↔ s = empty := by
    obtain ⟨bits⟩ := s
    rw [isEmpty, beq_iff_eq, empty, mk.injEq]
  rw [hempty, eq_iff_contains]
  simp only [contains_empty]

def ops : SetOps OrdinalSet where
  empty := empty
  single := single
  insert := insert
  union := union
  contains := contains
  intersects := intersects
  subset := subset
  equal s t := s = t
  isEmpty := isEmpty
  size := size
  toList := toList

theorem ops_lawful : ops.Lawful where
  contains_empty := contains_empty
  contains_single := contains_single
  contains_insert := contains_insert
  contains_union := contains_union
  intersects_iff _ _ := intersects_iff
  subset_iff _ _ := subset_iff
  equal_iff _ _ := decide_eq_true_iff.trans eq_iff_contains
  isEmpty_iff _ := isEmpty_iff
  mem_toList _ _ := mem_toList
  pairwise_toList := pairwise_toList
  size_eq _ := rfl

end OrdinalSet

end IndexSync
