import IndexSync.Value.Basic

/-!
# The order of values

`Value.compare` orders values first by constructor, in the order of their
declaration, and then by content: texts by code point, sequences
lexicographically, maps entry by entry with the key first, and the empty
optional before any other.

Main statements: the order is total and two values compare as equal exactly
when they are equal (`TransOrd`, `LawfulEqOrd`), which also decides equality.
-/

namespace IndexSync.Value

open Std

/-- Position of the outermost constructor in the order. -/
def rank : Value → Nat
  | null => 0
  | bool _ => 1
  | integer _ => 2
  | text _ => 3
  | bytes _ => 4
  | ref _ => 5
  | list _ => 6
  | set _ => 7
  | array _ => 8
  | map _ => 9
  | optional _ => 10

/-- Constructor first, content second. -/
protected def compare : Value → Value → Ordering
  | bool a, bool b => Ord.compare a b
  | integer a, integer b => Ord.compare a b
  | text a, text b => Ord.compare a b
  | bytes a, bytes b => Ord.compare a b
  | ref a, ref b => instOrdNat.compare a b
  | list a, list b => compareAll a b
  | set a, set b => compareAll a b
  | array a, array b => compareAll a b
  | map a, map b => compareEntries a b
  | optional a, optional b => compareInner a b
  | a, b => Ord.compare a.rank b.rank
termination_by structural a => a
where
  compareAll : List Value → List Value → Ordering
    | [], [] => .eq
    | [], _ :: _ => .lt
    | _ :: _, [] => .gt
    | a :: as, b :: bs => (Value.compare a b).then (compareAll as bs)
  termination_by structural a => a
  compareEntries : List (Value × Value) → List (Value × Value) → Ordering
    | [], [] => .eq
    | [], _ :: _ => .lt
    | _ :: _, [] => .gt
    | (k, v) :: as, (l, w) :: bs =>
      ((Value.compare k l).then (Value.compare v w)).then (compareEntries as bs)
  termination_by structural a => a
  compareInner : Option Value → Option Value → Ordering
    | none, none => .eq
    | none, some _ => .lt
    | some _, none => .gt
    | some a, some b => Value.compare a b
  termination_by structural a => a

instance : Ord Value := ⟨Value.compare⟩

/-! ## Induction over nested values -/

/-- What holds of a container as soon as it holds of its elements, and of every
scalar, holds of every value. -/
theorem induction {P : Value → Prop} (null : P null) (bool : ∀ b, P (bool b))
    (integer : ∀ n, P (integer n)) (text : ∀ s, P (text s)) (bytes : ∀ bs, P (bytes bs))
    (ref : ∀ id, P (ref id))
    (list : ∀ items, (∀ v ∈ items, P v) → P (list items))
    (set : ∀ items, (∀ v ∈ items, P v) → P (set items))
    (array : ∀ items, (∀ v ∈ items, P v) → P (array items))
    (map : ∀ entries, (∀ e ∈ entries, P e.1 ∧ P e.2) → P (map entries))
    (optional : ∀ inner, (∀ v ∈ inner, P v) → P (optional inner)) (v : Value) : P v := by
  refine @Value.rec P (fun items => ∀ v ∈ items, P v) (fun entries => ∀ e ∈ entries, P e.1 ∧ P e.2)
    (fun inner => ∀ v ∈ inner, P v) (fun e => P e.1 ∧ P e.2)
    null bool integer text bytes ref list set array map optional ?_ ?_ ?_ ?_ ?_ ?_ ?_ v
  · simp
  · intro head tail hh ht v hv
    rcases List.mem_cons.1 hv with rfl | hv
    · exact hh
    · exact ht v hv
  · simp
  · intro head tail hh ht e he
    rcases List.mem_cons.1 he with rfl | he
    · exact hh
    · exact ht e he
  · simp
  · intro w hw v hv
    cases hv
    exact hw
  · exact fun _ _ h₁ h₂ => ⟨h₁, h₂⟩

/-! ## Lexicographic order -/

/-- At `a` the comparison is antisymmetric, tells only `a` itself equal, and
passes over any middle element. -/
structure OrderlyAt (cmp : α → α → Ordering) (a : α) : Prop where
  swap : ∀ b, cmp a b = (cmp b a).swap
  eq_iff : ∀ b, cmp a b = .eq ↔ a = b
  trans : ∀ b c, cmp a b = .lt → (cmp b c).isLE → cmp a c = .lt

theorem orderlyAt_of_lawful [Ord α] [TransOrd α] [LawfulEqOrd α] (a : α) :
    OrderlyAt (compare : α → α → Ordering) a where
  swap _ := OrientedCmp.eq_swap
  eq_iff _ := LawfulEqCmp.compare_eq_iff_eq
  trans _ _ := TransCmp.lt_of_lt_of_isLE

/-- One comparison, and on a tie another: orderly if both are. -/
theorem OrderlyAt.lex {cmp : α → α → Ordering} {cmp' : β → β → Ordering} {a : α} {b : β}
    (ha : OrderlyAt cmp a) (hb : OrderlyAt cmp' b) :
    OrderlyAt (fun x y : α × β => (cmp x.1 y.1).then (cmp' x.2 y.2)) (a, b) where
  swap y := by rw [Ordering.swap_then, ← ha.swap, ← hb.swap]
  eq_iff y := by
    rw [Ordering.then_eq_eq, ha.eq_iff, hb.eq_iff, Prod.ext_iff]
  trans y z hy hz := by
    rw [Ordering.then_eq_lt] at hy ⊢
    rw [Ordering.isLE_then_iff_or] at hz
    rcases hy with hy | ⟨hy, hy'⟩
    · refine .inl (ha.trans _ _ hy ?_)
      rcases hz with hz | ⟨hz, _⟩ <;> simp [hz]
    · rw [ha.eq_iff] at hy
      subst hy
      rcases hz with hz | ⟨hz, hz'⟩
      · exact .inl hz
      · exact .inr ⟨hz, hb.trans _ _ hy' hz'⟩

/-- Sequences compare orderly when their elements do. -/
theorem OrderlyAt.list {cmp : α → α → Ordering} {as : List α} (h : ∀ a ∈ as, OrderlyAt cmp a) :
    OrderlyAt (List.compareLex cmp) as := by
  induction as with
  | nil =>
    refine ⟨fun bs => ?_, fun bs => ?_, fun bs cs => ?_⟩
    · cases bs <;> rfl
    · cases bs <;> simp [List.compareLex]
    · cases bs <;> cases cs <;> simp [List.compareLex]
  | cons a as ih =>
    have hl := (h a (by simp)).lex (ih fun b hb => h b (by simp [hb]))
    refine ⟨fun bs => ?_, fun bs => ?_, fun bs cs => ?_⟩
    · cases bs with
      | nil => rfl
      | cons b bs => simpa only [List.compareLex_cons_cons] using hl.swap (b, bs)
    · cases bs with
      | nil => simp [List.compareLex]
      | cons b bs => simpa [List.compareLex_cons_cons] using hl.eq_iff (b, bs)
    · cases bs with
      | nil => simp [List.compareLex]
      | cons b bs =>
        cases cs with
        | nil => simp [List.compareLex]
        | cons c cs => simpa only [List.compareLex_cons_cons] using hl.trans (b, bs) (c, cs)

/-- An optional compares as a sequence of at most one element. -/
theorem compareInner_eq (a b : Option Value) :
    Value.compare.compareInner a b = List.compareLex Value.compare a.toList b.toList := by
  cases a with
  | none => cases b <;> rfl
  | some a =>
    cases b with
    | none => rfl
    | some b =>
      show a.compare b = List.compareLex Value.compare [a] [b]
      rw [List.compareLex_cons_cons, List.compareLex_nil_nil, Ordering.then_eq]

theorem compareAll_eq (as bs : List Value) :
    Value.compare.compareAll as bs = List.compareLex Value.compare as bs := by
  induction as generalizing bs with
  | nil => cases bs <;> rfl
  | cons a as ih =>
    cases bs with
    | nil => rfl
    | cons b bs => rw [List.compareLex_cons_cons, ← ih]; rfl

theorem compareEntries_eq (as bs : List (Value × Value)) :
    Value.compare.compareEntries as bs =
      List.compareLex (fun x y => (Value.compare x.1 y.1).then (Value.compare x.2 y.2)) as bs := by
  induction as generalizing bs with
  | nil => cases bs <;> rfl
  | cons a as ih =>
    cases bs with
    | nil => rfl
    | cons b bs => rw [List.compareLex_cons_cons, ← ih]; rfl

/-! ## The laws -/

/-- Values of different constructors are ordered by their rank. -/
theorem compare_of_rank_ne {a b : Value} (h : a.rank ≠ b.rank) :
    a.compare b = Ord.compare a.rank b.rank := by
  cases a <;> cases b <;> first | rfl | exact absurd rfl h

/-- Orderliness at a value follows from orderliness of the comparison of the
contents that share its constructor. -/
theorem orderlyAt_of_content (mk : α → Value) (cmp : α → α → Ordering) (a : α)
    (hcmp : ∀ x y, (mk x).compare (mk y) = cmp x y)
    (hmk : ∀ b, b.rank = (mk a).rank → ∃ x, b = mk x) (hinj : ∀ x y, mk x = mk y → x = y)
    (h : OrderlyAt cmp a) : OrderlyAt Value.compare (mk a) where
  swap b := by
    by_cases hb : b.rank = (mk a).rank
    · obtain ⟨x, rfl⟩ := hmk b hb
      rw [hcmp, hcmp, h.swap]
    · rw [compare_of_rank_ne hb, compare_of_rank_ne (Ne.symm hb)]
      exact OrientedCmp.eq_swap
  eq_iff b := by
    by_cases hb : b.rank = (mk a).rank
    · obtain ⟨x, rfl⟩ := hmk b hb
      rw [hcmp, h.eq_iff]
      exact ⟨congrArg mk, hinj _ _⟩
    · rw [compare_of_rank_ne (Ne.symm hb), LawfulEqCmp.compare_eq_iff_eq]
      exact ⟨fun h => absurd h.symm hb, fun h => absurd (congrArg rank h.symm) hb⟩
  trans b c hb hc := by
    have hle : ∀ x y : Value, (x.compare y).isLE → x.rank ≤ y.rank := by
      intro x y hxy
      by_cases hr : x.rank = y.rank
      · exact Nat.le_of_eq hr
      · rw [compare_of_rank_ne hr] at hxy
        exact Nat.isLE_compare.1 hxy
    have hab := hle _ _ (by rw [hb]; rfl)
    have hbc := hle _ _ hc
    by_cases hr : (mk a).rank = c.rank
    · obtain ⟨x, rfl⟩ := hmk b (by omega)
      obtain ⟨y, rfl⟩ := hmk c hr.symm
      rw [hcmp] at hb hc ⊢
      exact h.trans _ _ hb hc
    · rw [compare_of_rank_ne hr]
      exact Nat.compare_eq_lt.2 (by omega)

theorem orderlyAt (v : Value) : OrderlyAt Value.compare v := by
  induction v using Value.induction with
  | null =>
    refine orderlyAt_of_content (fun _ : Unit => Value.null) (fun _ _ => .eq) ()
      (fun _ _ => rfl) ?_ (fun _ _ _ => rfl) ?_
    · intro b hb; cases b <;> simp [rank] at hb ⊢
    · exact ⟨fun _ => rfl, fun _ => by simp, fun _ _ h => by simp at h⟩
  | bool b =>
    refine orderlyAt_of_content bool Ord.compare _ (fun _ _ => rfl) ?_ (by simp)
      (orderlyAt_of_lawful b)
    intro b hb; cases b <;> simp [rank] at hb ⊢
  | integer b =>
    refine orderlyAt_of_content integer Ord.compare _ (fun _ _ => rfl) ?_ (by simp)
      (orderlyAt_of_lawful b)
    intro b hb; cases b <;> simp [rank] at hb ⊢
  | text b =>
    refine orderlyAt_of_content text Ord.compare _ (fun _ _ => rfl) ?_ (by simp)
      (orderlyAt_of_lawful b)
    intro b hb; cases b <;> simp [rank] at hb ⊢
  | bytes b =>
    refine orderlyAt_of_content bytes Ord.compare _ (fun _ _ => rfl) ?_ (by simp)
      (orderlyAt_of_lawful b)
    intro b hb; cases b <;> simp [rank] at hb ⊢
  | ref b =>
    refine orderlyAt_of_content ref Ord.compare _ (fun _ _ => rfl) ?_ (by simp)
      (orderlyAt_of_lawful b)
    intro b hb; cases b <;> simp [rank] at hb ⊢
  | list items ih =>
    refine orderlyAt_of_content list _ _ compareAll_eq ?_ (by simp)
      (.list ih)
    intro b hb; cases b <;> simp [rank] at hb ⊢
  | set items ih =>
    refine orderlyAt_of_content set _ _ compareAll_eq ?_ (by simp)
      (.list ih)
    intro b hb; cases b <;> simp [rank] at hb ⊢
  | array items ih =>
    refine orderlyAt_of_content array _ _ compareAll_eq ?_ (by simp)
      (.list ih)
    intro b hb; cases b <;> simp [rank] at hb ⊢
  | map entries ih =>
    refine orderlyAt_of_content map _ _ compareEntries_eq ?_ (by simp)
      (.list fun e he => (ih e he).1.lex (ih e he).2)
    intro b hb; cases b <;> simp [rank] at hb ⊢
  | optional inner ih =>
    have hl : OrderlyAt (List.compareLex Value.compare) inner.toList :=
      .list fun v hv => ih v (by simpa using hv)
    refine orderlyAt_of_content optional
      (fun x y => List.compareLex Value.compare x.toList y.toList) _
      (fun x y => compareInner_eq x y) ?_ (by simp) ?_
    · intro b hb; cases b <;> simp [rank] at hb ⊢
    · refine ⟨fun b => hl.swap _, fun b => (hl.eq_iff _).trans ?_, fun b c => hl.trans _ _⟩
      cases inner <;> cases b <;> simp

instance : TransOrd Value where
  eq_swap {a b} := (orderlyAt a).swap b
  isLE_trans {a b c} hab hbc := by
    cases h : compare a b with
    | lt => exact (congrArg Ordering.isLE ((orderlyAt a).trans b c h hbc)).trans rfl
    | eq => exact ((orderlyAt a).eq_iff b).1 h ▸ hbc
    | gt => simp [h] at hab

instance : LawfulEqOrd Value where
  compare_self {a} := ((orderlyAt a).eq_iff a).2 rfl
  eq_of_compare {a b} := ((orderlyAt a).eq_iff b).1

instance : DecidableEq Value := fun a b =>
  decidable_of_iff (compare a b = .eq) LawfulEqCmp.compare_eq_iff_eq

end IndexSync.Value
