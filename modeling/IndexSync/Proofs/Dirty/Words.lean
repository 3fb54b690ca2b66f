import Mathlib.Algebra.GroupWithZero.Nat
import Mathlib.Data.List.Basic
import IndexSync.Proofs.Dirty.Ordinals

/-!
# Sets of ordinals in words

A set of ordinals can also be kept in words of 64 bits, of which there are as many as the
members have needed so far.  How many there are makes no difference to any answer.

- `WordSet` — the words, and the operations word by word.
- `WordSet.holds_eq` — testing a word for one bit.
- `WordSet.contains_eq`, `WordSet.word_grown`, `WordSet.word_insert`, `WordSet.word_union` —
  the words that are not there hold nothing.
- `WordSet.ops_lawful` — so words keep a set of ordinals.
- `SetCall.answered_as_finite_sets` — the bits of one number and words of 64 bits, with any
  number of words of zeros behind them, both answer as the finite sets that are built alike.
-/

namespace IndexSync

/-- A set of ordinals in words of 64 bits, the lowest ordinals in the first word. -/
structure WordSet where
  words : List UInt64
deriving DecidableEq

namespace WordSet

/-- The word that holds one bit. -/
def bit (k : Nat) : UInt64 := 1 <<< k.toUInt64

def holds (w : UInt64) (k : Nat) : Bool := w &&& bit k != 0

def empty : WordSet := ⟨[]⟩

/-- At least so many words; words of zeros are added where there are fewer. -/
def grown (s : WordSet) (count : Nat) : WordSet :=
  ⟨s.words ++ List.replicate (count - s.words.length) 0⟩

def insert (s : WordSet) (n : Nat) : WordSet :=
  ⟨(s.grown (n / 64 + 1)).words.modify (n / 64) (· ||| bit (n % 64))⟩

def single (n : Nat) : WordSet := empty.insert n

def contains (s : WordSet) (n : Nat) : Bool :=
  s.words[n / 64]?.any fun w => holds w (n % 64)

def union (s t : WordSet) : WordSet :=
  let mine := (s.grown t.words.length).words
  ⟨List.zipWith (· ||| ·) mine t.words ++ mine.drop t.words.length⟩

def intersects (s t : WordSet) : Bool :=
  (s.words.zip t.words).any fun (w, v) => w &&& v != 0

def subset (s t : WordSet) : Bool :=
  s.words.zipIdx.all fun (w, i) => w &&& ~~~ (t.words[i]?.getD 0) == 0

/-- Sets are told apart by their members, and not by their words. -/
def equal (s t : WordSet) : Bool := s.subset t && t.subset s

def isEmpty (s : WordSet) : Bool := s.words.all (· == 0)

def size (s : WordSet) : Nat := (s.words.map fun w => w.toBitVec.cpop.toNat).sum

def toList (s : WordSet) : List Nat :=
  s.words.zipIdx.flatMap fun (w, i) => ((List.range 64).filter (holds w)).map (i * 64 + ·)

/-! ## Bits of a word -/

section

variable {w v : UInt64} {k : Nat}

theorem toBitVec_bit (hk : k < 64) : (bit k).toBitVec = BitVec.twoPow 64 k := by
  apply BitVec.eq_of_toNat_eq
  simp [bit, BitVec.toNat_twoPow, Nat.mod_eq_of_lt hk, Nat.shiftLeft_eq]

theorem holds_eq (w : UInt64) (hk : k < 64) : holds w k = w.toBitVec.getLsbD k := by
  have hne : BitVec.twoPow 64 k ≠ 0#64 := fun hzero => by
    have hbit := congrArg (·.getLsbD k) hzero
    simp [hk] at hbit
  have hand : w &&& bit k = 0 ↔ w.toBitVec.getLsbD k = false := by
    rw [← UInt64.toBitVec_inj, UInt64.toBitVec_and, toBitVec_bit hk, BitVec.and_twoPow]
    cases w.toBitVec.getLsbD k <;> simp [hne]
  rw [holds, Bool.eq_iff_iff, bne_iff_ne, Ne, hand, Bool.not_eq_false]

theorem holds_zero (hk : k < 64) : holds 0 k = false := by
  rw [holds_eq 0 hk]
  simp

theorem holds_or (hk : k < 64) : holds (w ||| v) k = (holds w k || holds v k) := by
  simp [holds_eq _ hk]

theorem holds_bit {j : Nat} (hj : j < 64) (hk : k < 64) :
    holds (bit j) k = decide (j = k) := by
  simp [holds_eq _ hk, toBitVec_bit hj, hj]

/-- Words are told apart by their bits. -/
theorem eq_iff_holds : w = v ↔ ∀ k < 64, holds w k = holds v k := by
  constructor
  · rintro rfl _ _
    rfl
  · intro h
    apply UInt64.toBitVec_inj.mp
    apply BitVec.eq_of_getLsbD_eq
    intro k hk
    rw [← holds_eq w hk, ← holds_eq v hk, h k hk]

theorem eq_zero_iff : w = 0 ↔ ∀ k < 64, holds w k = false := by
  rw [eq_iff_holds]
  refine forall₂_congr fun k hk => ?_
  rw [holds_zero hk]

theorem and_ne_zero_iff : w &&& v ≠ 0 ↔ ∃ k < 64, holds w k = true ∧ holds v k = true := by
  rw [Ne, eq_zero_iff]
  push Not
  refine exists_congr fun k => and_congr_right fun hk => ?_
  simp [holds_eq _ hk]

/-- All bits of the first word are bits of the second. -/
theorem and_not_eq_zero_iff :
    w &&& ~~~ v = 0 ↔ ∀ k < 64, holds w k = true → holds v k = true := by
  rw [eq_zero_iff]
  refine forall₂_congr fun k hk => ?_
  simp [holds_eq _ hk, hk]

theorem cpop_eq_length (w : UInt64) :
    w.toBitVec.cpop.toNat = ((List.range 64).filter (holds w)).length := by
  have hcount : ∀ k, w.toBitVec.cpopNatRec k 0 = (List.range k).countP w.toBitVec.getLsbD := by
    intro k
    induction k with
    | zero => rfl
    | succ k ih =>
        rw [BitVec.cpopNatRec_succ, BitVec.cpopNatRec_add, ih, List.range_succ, List.countP_append,
          List.countP_singleton]
        cases w.toBitVec.getLsbD k <;> rfl
  rw [BitVec.toNat_cpop, hcount, List.countP_eq_length_filter]
  congr 1
  exact List.filter_congr fun k hk => (holds_eq w (List.mem_range.mp hk)).symm

end

/-! ## Words of a set -/

section

variable {s t : WordSet} {i k n : Nat}

/-- A word of a set, where a word that is not there is one of zeros. -/
def word (s : WordSet) (i : Nat) : UInt64 := s.words[i]?.getD 0

theorem contains_eq (s : WordSet) (n : Nat) : s.contains n = holds (s.word (n / 64)) (n % 64) := by
  rw [contains, word]
  cases s.words[n / 64]? with
  | none => exact (holds_zero (Nat.mod_lt n (by decide))).symm
  | some w => rfl

theorem contains_mul_add (hk : k < 64) : s.contains (i * 64 + k) = holds (s.word i) k := by
  have hdiv : (i * 64 + k) / 64 = i := by omega
  have hmod : (i * 64 + k) % 64 = k := by omega
  rw [contains_eq, hdiv, hmod]

theorem length_grown (s : WordSet) (count : Nat) :
    (s.grown count).words.length = max s.words.length count := by
  rw [grown, List.length_append, List.length_replicate]
  omega

theorem word_grown (s : WordSet) (count i : Nat) : (s.grown count).word i = s.word i := by
  rw [word, grown, List.getElem?_append, word]
  split
  · rfl
  · rename_i hi
    rw [List.getElem?_eq_none (Nat.le_of_not_lt hi), List.getElem?_replicate]
    split <;> rfl

theorem word_insert (s : WordSet) (n i : Nat) :
    (s.insert n).word i = if n / 64 = i then s.word i ||| bit (n % 64) else s.word i := by
  have hgrown : (s.grown (n / 64 + 1)).word i = s.word i := word_grown ..
  rw [word, insert, List.getElem?_modify, ← hgrown, word]
  split
  · -- the word is there, as the set was grown for it
    rename_i hi
    have hlt : i < (s.grown (n / 64 + 1)).words.length := by
      rw [length_grown]
      omega
    rw [List.getElem?_eq_getElem hlt]
    rfl
  · cases (s.grown (n / 64 + 1)).words[i]? <;> rfl

theorem word_union (s t : WordSet) (i : Nat) : (s.union t).word i = s.word i ||| t.word i := by
  have hgrown : (s.grown t.words.length).word i = s.word i := word_grown ..
  have hlength : t.words.length ≤ (s.grown t.words.length).words.length := by
    rw [length_grown]
    exact Nat.le_max_right _ _
  rw [← hgrown]
  unfold word union
  generalize (s.grown t.words.length).words = mine at hlength ⊢
  rw [List.getElem?_append, List.length_zipWith, Nat.min_eq_right hlength]
  split
  · rename_i hi
    rw [List.getElem?_zipWith, List.getElem?_eq_getElem hi,
      List.getElem?_eq_getElem (Nat.lt_of_lt_of_le hi hlength)]
    rfl
  · rename_i hi
    have hi : t.words.length ≤ i := Nat.le_of_not_lt hi
    rw [List.getElem?_drop, Nat.add_sub_cancel' hi, List.getElem?_eq_none hi]
    simp

/-! ## Members -/

theorem contains_empty (n : Nat) : empty.contains n = false := rfl

theorem contains_insert (s : WordSet) (k n : Nat) :
    (s.insert k).contains n = (s.contains n || decide (k = n)) := by
  have hn : n % 64 < 64 := Nat.mod_lt n (by decide)
  have hk : k % 64 < 64 := Nat.mod_lt k (by decide)
  rw [contains_eq, contains_eq, word_insert]
  -- in the same word the bits decide, and in another one nothing changes
  split
  · rename_i hword
    have hplace : k % 64 = n % 64 ↔ k = n := by omega
    rw [holds_or hn, holds_bit hk hn]
    simp only [hplace]
  · rename_i hword
    have hne : k ≠ n := fun h => hword (by rw [h])
    simp [hne]

theorem contains_single (k n : Nat) : (single k).contains n = decide (k = n) := by
  rw [single, contains_insert, contains_empty, Bool.false_or]

theorem contains_union (s t : WordSet) (n : Nat) :
    (s.union t).contains n = (s.contains n || t.contains n) := by
  rw [contains_eq, word_union, holds_or (Nat.mod_lt n (by decide)), contains_eq, contains_eq]

theorem contains_grown (s : WordSet) (count n : Nat) :
    (s.grown count).contains n = s.contains n := by
  rw [contains_eq, word_grown, contains_eq]

/-- What holds of all ordinals holds of all bits of all words. -/
theorem forall_ordinal_iff (p : Nat → Prop) :
    (∀ n, p n) ↔ ∀ i, ∀ k < 64, p (i * 64 + k) := by
  constructor
  · exact fun h _ _ _ => h _
  · intro h n
    rw [← Nat.div_add_mod' n 64]
    exact h _ _ (Nat.mod_lt n (by decide))

theorem exists_ordinal_iff (p : Nat → Prop) :
    (∃ n, p n) ↔ ∃ i, ∃ k < 64, p (i * 64 + k) := by
  rw [← not_iff_not]
  push Not
  exact forall_ordinal_iff _

theorem word_of_getElem? {w : UInt64} (h : s.words[i]? = some w) : s.word i = w := by
  rw [word, h, Option.getD_some]

theorem word_eq_zero (h : s.words.length ≤ i) : s.word i = 0 := by
  rw [word, List.getElem?_eq_none h, Option.getD_none]

/-- What holds of all words that are there, and of one of zeros, holds of all words. -/
theorem forall_getElem?_iff {p : Nat → UInt64 → Prop} (hzero : ∀ i, p i 0) :
    (∀ i w, s.words[i]? = some w → p i w) ↔ ∀ i, p i (s.word i) := by
  constructor
  · intro h i
    cases hi : s.words[i]? with
    | none =>
        rw [word, hi]
        exact hzero i
    | some w =>
        rw [word_of_getElem? hi]
        exact h i w hi
  · intro h i w hi
    rw [← word_of_getElem? hi]
    exact h i

theorem isEmpty_iff : s.isEmpty = true ↔ ∀ n, s.contains n = false := by
  calc s.isEmpty = true
    _ ↔ ∀ i (w : UInt64), s.words[i]? = some w → w = 0 := by
        simp only [isEmpty, List.all_eq_true, beq_iff_eq, List.mem_iff_getElem?, forall_exists_index]
        exact forall_comm
    _ ↔ ∀ i, s.word i = 0 := forall_getElem?_iff fun _ => rfl
    _ ↔ ∀ i, ∀ k < 64, s.contains (i * 64 + k) = false := by
        refine forall_congr' fun i => ?_
        rw [eq_zero_iff]
        exact forall₂_congr fun k hk => by rw [contains_mul_add hk]
    _ ↔ ∀ n, s.contains n = false :=
        (forall_ordinal_iff fun n => s.contains n = false).symm

theorem subset_iff :
    s.subset t = true ↔ ∀ n, s.contains n = true → t.contains n = true := by
  calc s.subset t = true
    _ ↔ ∀ i (w : UInt64), s.words[i]? = some w → w &&& ~~~ t.word i = 0 := by
        simp only [subset, List.all_eq_true, beq_iff_eq, Prod.forall,
          List.mk_mem_zipIdx_iff_getElem?]
        exact forall_comm
    _ ↔ ∀ i, s.word i &&& ~~~ t.word i = 0 := forall_getElem?_iff fun _ => UInt64.zero_and
    _ ↔ ∀ i, ∀ k < 64, s.contains (i * 64 + k) = true → t.contains (i * 64 + k) = true := by
        refine forall_congr' fun i => ?_
        rw [and_not_eq_zero_iff]
        exact forall₂_congr fun k hk => by rw [contains_mul_add hk, contains_mul_add hk]
    _ ↔ ∀ n, s.contains n = true → t.contains n = true :=
        (forall_ordinal_iff fun n => s.contains n = true → t.contains n = true).symm

theorem equal_iff : s.equal t = true ↔ ∀ n, s.contains n = t.contains n := by
  rw [equal, Bool.and_eq_true, subset_iff, subset_iff, ← forall_and]
  refine forall_congr' fun n => ?_
  cases s.contains n <;> cases t.contains n <;> simp

/-- Sets share a bit only where both have a word. -/
theorem intersects_iff :
    s.intersects t = true ↔ ∃ n, s.contains n = true ∧ t.contains n = true := by
  calc s.intersects t = true
    _ ↔ ∃ i, ∃ w v : UInt64, s.words[i]? = some w ∧ t.words[i]? = some v ∧ w &&& v ≠ 0 := by
        simp only [intersects, List.any_eq_true, bne_iff_ne, Prod.exists, List.mem_iff_getElem?,
          List.getElem?_zip_eq_some]
        constructor
        · rintro ⟨w, v, ⟨i, hw, hv⟩, hne⟩
          exact ⟨i, w, v, hw, hv, hne⟩
        · rintro ⟨i, w, v, hw, hv, hne⟩
          exact ⟨w, v, ⟨i, hw, hv⟩, hne⟩
    _ ↔ ∃ i, s.word i &&& t.word i ≠ 0 := by
        refine exists_congr fun i => ?_
        constructor
        · rintro ⟨w, v, hw, hv, hne⟩
          rwa [word_of_getElem? hw, word_of_getElem? hv]
        · intro hne
          have hs : i < s.words.length := by
            by_contra hi
            exact hne (by rw [word_eq_zero (Nat.le_of_not_lt hi), UInt64.zero_and])
          have ht : i < t.words.length := by
            by_contra hi
            exact hne (by rw [word_eq_zero (Nat.le_of_not_lt hi), UInt64.and_zero])
          refine ⟨_, _, List.getElem?_eq_getElem hs, List.getElem?_eq_getElem ht, ?_⟩
          rwa [← word_of_getElem? (List.getElem?_eq_getElem hs),
            ← word_of_getElem? (List.getElem?_eq_getElem ht)]
    _ ↔ ∃ i, ∃ k < 64, s.contains (i * 64 + k) = true ∧ t.contains (i * 64 + k) = true := by
        refine exists_congr fun i => ?_
        rw [and_ne_zero_iff]
        exact exists_congr fun k => and_congr_right fun hk => by
          rw [contains_mul_add hk, contains_mul_add hk]
    _ ↔ ∃ n, s.contains n = true ∧ t.contains n = true :=
        (exists_ordinal_iff fun n => s.contains n = true ∧ t.contains n = true).symm

/-! ## Listing -/

theorem mem_toList : n ∈ s.toList ↔ s.contains n = true := by
  simp only [toList, List.mem_flatMap, Prod.exists, List.mk_mem_zipIdx_iff_getElem?, List.mem_map,
    List.mem_filter, List.mem_range]
  constructor
  · rintro ⟨w, i, hw, k, ⟨hk, hbit⟩, rfl⟩
    rw [contains_mul_add hk, word_of_getElem? hw]
    exact hbit
  · intro h
    rw [contains, Option.any_eq_true] at h
    obtain ⟨w, hw, hbit⟩ := h
    exact ⟨w, n / 64, hw, n % 64, ⟨Nat.mod_lt n (by decide), hbit⟩, Nat.div_add_mod' n 64⟩

/-- Words come with their places in increasing order. -/
theorem pairwise_zipIdx (words : List UInt64) :
    words.zipIdx.Pairwise fun p q => p.2 < q.2 := by
  rw [← List.pairwise_map, List.zipIdx_map_snd]
  exact List.pairwise_lt_range'

theorem pairwise_toList (s : WordSet) : s.toList.Pairwise (· < ·) := by
  rw [toList, List.pairwise_flatMap]
  constructor
  · rintro ⟨w, i⟩ -
    rw [List.pairwise_map]
    refine (List.pairwise_lt_range.filter _).imp fun hlt => ?_
    omega
  · refine (pairwise_zipIdx s.words).imp ?_
    rintro ⟨w, i⟩ ⟨v, j⟩ hlt m hm n hn
    obtain ⟨k, hk, rfl⟩ := List.mem_map.mp hm
    obtain ⟨l, hl, rfl⟩ := List.mem_map.mp hn
    have hk64 := List.mem_range.mp (List.mem_filter.mp hk).1
    dsimp only at hlt
    omega

theorem size_eq (s : WordSet) : s.size = s.toList.length := by
  rw [size, toList, List.length_flatMap]
  conv_lhs => rw [← List.zipIdx_map_fst 0 s.words, List.map_map]
  congr 1
  refine List.map_congr_left fun p _ => ?_
  simp [cpop_eq_length]

def ops : SetOps WordSet where
  empty := empty
  single := single
  insert := insert
  union := union
  contains := contains
  intersects := intersects
  subset := subset
  equal := equal
  isEmpty := isEmpty
  size := size
  toList := toList

theorem ops_lawful : ops.Lawful where
  contains_empty := contains_empty
  contains_single := contains_single
  contains_insert := contains_insert
  contains_union := contains_union
  intersects_iff _ _ := intersects_iff
  subset_iff _ _ := subset_iff
  equal_iff _ _ := equal_iff
  isEmpty_iff _ := isEmpty_iff
  mem_toList _ _ := mem_toList
  pairwise_toList := pairwise_toList
  size_eq := size_eq

end

theorem answers_grown {s t : WordSet} {a b : Finset ℕ} (hs : ops.Represents s a)
    (ht : ops.Represents t b) (count count' : Nat) :
    ops.Answers (s.grown count) (t.grown count') a b := by
  refine ops_lawful.answers (fun n => ?_) (fun n => ?_)
  · exact (Bool.eq_iff_iff.mp (contains_grown s count n)).trans (hs n)
  · exact (Bool.eq_iff_iff.mp (contains_grown t count' n)).trans (ht n)

end WordSet

/-- Sets of ordinals answer as the finite sets that the same calls build, kept as the bits of one
number as well as in words of 64 bits, of which either set may have any number too many. -/
theorem SetCall.answered_as_finite_sets (calls : List SetCall) (i j : Nat) :
    OrdinalSet.ops.Answers (OrdinalSet.ops.afterAll calls i) (OrdinalSet.ops.afterAll calls j)
      (finsets.afterAll calls i) (finsets.afterAll calls j) ∧
    ∀ count count', WordSet.ops.Answers ((WordSet.ops.afterAll calls i).grown count)
      ((WordSet.ops.afterAll calls j).grown count') (finsets.afterAll calls i)
      (finsets.afterAll calls j) :=
  ⟨OrdinalSet.ops_lawful.answers_afterAll calls i j, WordSet.answers_grown
    (WordSet.ops_lawful.represents_afterAll calls i)
    (WordSet.ops_lawful.represents_afterAll calls j)⟩

example : (WordSet.single 3).grown 4 ≠ WordSet.single 3 ∧
    ((WordSet.single 3).grown 4).equal (WordSet.single 3) = true ∧
    ((WordSet.single 130).insert 3).toList = [3, 130] := by
  decide +kernel

end IndexSync
