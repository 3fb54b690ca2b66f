import Mathlib.Data.List.Basic

/-!
# Counting in lists

- `List.countP_lt_countP` — more members are counted if one more is.
- `List.le_foldl_max` — no member exceeds the greatest.
-/

theorem List.countP_lt_countP {α : Type*} {p q : α → Bool} {l : List α}
    (h : ∀ a ∈ l, p a = true → q a = true) {a : α} (ha : a ∈ l) (hp : p a = false)
    (hq : q a = true) : l.countP p < l.countP q := by
  obtain ⟨before, after, rfl⟩ := List.append_of_mem ha
  have hbefore : before.countP p ≤ before.countP q :=
    List.countP_mono_left fun b hb => h b (List.mem_append_left _ hb)
  have hafter : after.countP p ≤ after.countP q :=
    List.countP_mono_left fun b hb => h b (List.mem_append_right _ (List.mem_cons_of_mem _ hb))
  simp only [List.countP_append, List.countP_cons, hp, hq, Bool.false_eq_true, if_true, if_false]
  omega

theorem List.le_foldl_max {l : List Nat} {n : Nat} (h : n ∈ l) : n ≤ l.foldl max 0 := by
  suffices go : ∀ (l : List Nat) (start : Nat), start ≤ l.foldl max start ∧
      ∀ n ∈ l, n ≤ l.foldl max start from (go l 0).2 n h
  intro l
  induction l with
  | nil =>
      intro start
      exact ⟨Nat.le_refl _, nofun⟩
  | cons m l ih =>
      intro start
      obtain ⟨hstart, hmem⟩ := ih (max start m)
      rw [List.foldl_cons]
      refine ⟨Nat.le_trans (Nat.le_max_left _ _) hstart, fun n hn => ?_⟩
      rcases List.mem_cons.mp hn with rfl | hn
      · exact Nat.le_trans (Nat.le_max_right _ _) hstart
      · exact hmem n hn
