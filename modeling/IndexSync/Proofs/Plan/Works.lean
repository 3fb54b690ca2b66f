import Mathlib.Data.List.Induction
import IndexSync.Plan

/-!
# What works come to

Works are merged from calls for them, one document at a time; the calls may come in any
order.

- `Works.mergeAll` — merges calls into works.
- `Works.exists_call`, `Works.exists_work` — a work was called for; a call leads to a work
  that is at least as strong.
- `Works.mem_inOrder_mergeAll` — so the works are the strongest call on each document.
- `Works.mergeAll_congr`, `Works.mergeAll_inOrder` — neither the order of the calls nor
  their number matters, and works may be merged in place of the calls for them.
-/

namespace IndexSync

theorem Action.eq_of_strength_eq {a b : Action} (h : a.strength = b.strength) : a = b := by
  cases a <;> cases b <;> first | rfl | cases h

theorem Action.max_eq_or (a b : Action) : a.max b = a ∨ a.max b = b := by
  unfold max
  split
  · exact .inr rfl
  · exact .inl rfl

theorem Action.strength_le_max (a b : Action) :
    a.strength ≤ (a.max b).strength ∧ b.strength ≤ (a.max b).strength := by
  cases a <;> cases b <;> decide

theorem Action.max_self (a : Action) : a.max a = a :=
  (max_eq_or a a).elim id id

namespace Works

/-- Merges all calls, first to last. -/
def mergeAll (works : Works) (calls : List Work) : Works :=
  calls.foldl (fun works call => works.merge call.reference call.action) works

/-- The call is made, and no stronger one on the same document. -/
def IsStrongest (calls : List Work) (r : EntityRef) (a : Action) : Prop :=
  ⟨r, a⟩ ∈ calls ∧ ∀ b, ⟨r, b⟩ ∈ calls → b.strength ≤ a.strength

variable {works : Works} {calls : List Work} {r : EntityRef} {a b : Action}

theorem mem_inOrder : ⟨r, a⟩ ∈ works.inOrder ↔ works[r]? = some a := by
  rw [← Std.ExtTreeMap.mem_toList_iff_getElem?_eq_some]
  unfold inOrder
  rw [List.mem_map]
  constructor
  · rintro ⟨_, hmem, ⟨⟩⟩
    exact hmem
  · intro hmem
    exact ⟨(r, a), hmem, rfl⟩

/-- There is one work for each document, in order of reference. -/
theorem pairwise_inOrder (works : Works) :
    works.inOrder.Pairwise fun w w' => compare w.reference w'.reference = .lt :=
  List.pairwise_map.mpr Std.ExtTreeMap.ordered_keys_toList

theorem mergeAll_append (works : Works) (calls more : List Work) :
    works.mergeAll (calls ++ more) = (works.mergeAll calls).mergeAll more :=
  List.foldl_append

theorem mergeAll_snoc (works : Works) (calls : List Work) (last : Work) :
    works.mergeAll (calls ++ [last]) =
      (works.mergeAll calls).merge last.reference last.action :=
  mergeAll_append works calls [last]

theorem mergeUpdates_eq (works : Works) (found : EntitySet) :
    works.mergeUpdates found = works.mergeAll (found.toList.map (⟨·, .update⟩)) := by
  unfold mergeUpdates mergeAll
  rw [List.foldl_map]

theorem getElem?_merge_of_ne (works : Works) {r r' : EntityRef} (h : r ≠ r') (a : Action) :
    (works.merge r a)[r']? = works[r']? := by
  unfold merge
  rw [Std.ExtTreeMap.getElem?_insert, if_neg]
  intro heq
  exact h (Std.LawfulEqCmp.eq_of_compare heq)

/-- After a merge there is a work on the document, the one before or the one added,
whichever is stronger. -/
theorem getElem?_merge_self (works : Works) (r : EntityRef) (a : Action) :
    ∃ b, (works.merge r a)[r]? = some b ∧ (works[r]? = some b ∨ b = a) ∧
      a.strength ≤ b.strength ∧ ∀ c, works[r]? = some c → c.strength ≤ b.strength := by
  refine ⟨(works.getD r a).max a, Std.ExtTreeMap.getElem?_insert_self, ?_,
    (Action.strength_le_max _ a).2, ?_⟩
  · cases hr : works[r]? with
    | none =>
        rw [Std.ExtTreeMap.getD_eq_getD_getElem?, hr]
        exact .inr (Action.max_self a)
    | some c =>
        rw [Std.ExtTreeMap.getD_eq_getD_getElem?, hr]
        rcases Action.max_eq_or c a with h | h
        · exact .inl (congrArg some h.symm)
        · exact .inr h
  · intro c hc
    rw [Std.ExtTreeMap.getD_eq_getD_getElem?, hc]
    exact (Action.strength_le_max c a).1

/-- A work was called for. -/
theorem exists_call (h : (mergeAll ∅ calls)[r]? = some a) : ⟨r, a⟩ ∈ calls := by
  induction calls using List.reverseRecOn generalizing a with
  | nil => simp [mergeAll] at h
  | append_singleton calls last ih =>
      rw [mergeAll_snoc] at h
      rw [List.mem_append, List.mem_singleton]
      by_cases hr : last.reference = r
      · subst hr
        obtain ⟨b, hb, hfrom, -⟩ :=
          getElem?_merge_self (mergeAll ∅ calls) last.reference last.action
        cases hb.symm.trans h
        rcases hfrom with hbefore | rfl
        · exact .inl (ih hbefore)
        · exact .inr rfl
      · rw [getElem?_merge_of_ne _ hr] at h
        exact .inl (ih h)

/-- A call leads to a work that is at least as strong. -/
theorem exists_work (h : ⟨r, a⟩ ∈ calls) :
    ∃ b, (mergeAll ∅ calls)[r]? = some b ∧ a.strength ≤ b.strength := by
  induction calls using List.reverseRecOn with
  | nil => cases h
  | append_singleton calls last ih =>
      rw [mergeAll_snoc]
      rw [List.mem_append, List.mem_singleton] at h
      by_cases hr : last.reference = r
      · subst hr
        obtain ⟨b, hb, -, hlast, hbefore⟩ :=
          getElem?_merge_self (mergeAll ∅ calls) last.reference last.action
        refine ⟨b, hb, ?_⟩
        rcases h with hmem | hcall
        · obtain ⟨c, hc, hac⟩ := ih hmem
          exact Nat.le_trans hac (hbefore c hc)
        · rwa [← hcall] at hlast
      · rw [getElem?_merge_of_ne _ hr]
        rcases h with hmem | rfl
        · exact ih hmem
        · exact absurd rfl hr

/-- The works merged from calls are the strongest call on each document. -/
theorem mem_inOrder_mergeAll : ⟨r, a⟩ ∈ (mergeAll ∅ calls).inOrder ↔ IsStrongest calls r a := by
  rw [mem_inOrder]
  constructor
  · intro h
    refine ⟨exists_call h, fun b hb => ?_⟩
    obtain ⟨c, hc, hbc⟩ := exists_work hb
    cases hc.symm.trans h
    exact hbc
  · rintro ⟨hcall, hbest⟩
    obtain ⟨b, hb, hab⟩ := exists_work hcall
    have hba : b.strength ≤ a.strength := hbest b (exists_call hb)
    rw [hb, Action.eq_of_strength_eq (Nat.le_antisymm hba hab)]

/-! ## Merging in any order -/

theorem ext_of_mem {works works' : Works}
    (h : ∀ r a, ⟨r, a⟩ ∈ works.inOrder ↔ ⟨r, a⟩ ∈ works'.inOrder) : works = works' := by
  refine Std.ExtTreeMap.ext_getElem? fun r => ?_
  refine Option.ext fun a => ?_
  rw [← mem_inOrder, ← mem_inOrder]
  exact h r a

/-- Neither the order of the calls nor their number matters. -/
theorem mergeAll_congr {calls calls' : List Work} (h : ∀ call, call ∈ calls ↔ call ∈ calls') :
    mergeAll ∅ calls = mergeAll ∅ calls' := by
  refine ext_of_mem fun r a => ?_
  simp only [mem_inOrder_mergeAll, IsStrongest, h]

/-- Works come from calls for just these. -/
theorem mergeAll_empty_inOrder (works : Works) : mergeAll ∅ works.inOrder = works := by
  refine ext_of_mem fun r a => ?_
  rw [mem_inOrder_mergeAll]
  refine ⟨And.left, fun h => ⟨h, fun b hb => ?_⟩⟩
  cases (mem_inOrder.mp h).symm.trans (mem_inOrder.mp hb)
  exact Nat.le_refl _

/-- Merging more calls leaves the strongest of all, on each document. -/
theorem mem_inOrder_mergeAll_iff : ⟨r, a⟩ ∈ (works.mergeAll calls).inOrder ↔
    IsStrongest (works.inOrder ++ calls) r a := by
  rw [← mem_inOrder_mergeAll, mergeAll_append, mergeAll_empty_inOrder]

/-- The works that calls come to may be merged in place of the calls. -/
theorem mergeAll_inOrder (works : Works) (calls : List Work) :
    works.mergeAll (mergeAll ∅ calls).inOrder = works.mergeAll calls := by
  refine ext_of_mem fun r a => ?_
  rw [mem_inOrder_mergeAll_iff, mem_inOrder_mergeAll_iff]
  -- a call is as strong as some work, and a work is one of the calls
  have hcall : ∀ {b}, ⟨r, b⟩ ∈ (mergeAll ∅ calls).inOrder → ⟨r, b⟩ ∈ calls := fun h =>
    (mem_inOrder_mergeAll.mp h).1
  have hwork : ∀ {b}, ⟨r, b⟩ ∈ calls →
      ∃ c, ⟨r, c⟩ ∈ (mergeAll ∅ calls).inOrder ∧ b.strength ≤ c.strength := by
    intro b hb
    obtain ⟨c, hc, hle⟩ := exists_work hb
    exact ⟨c, mem_inOrder.mpr hc, hle⟩
  simp only [IsStrongest, List.mem_append]
  constructor
  · rintro ⟨hmem, hbest⟩
    refine ⟨hmem.imp_right hcall, fun b hb => ?_⟩
    rcases hb with hb | hb
    · exact hbest b (.inl hb)
    · obtain ⟨c, hc, hle⟩ := hwork hb
      exact Nat.le_trans hle (hbest c (.inr hc))
  · rintro ⟨hmem, hbest⟩
    refine ⟨hmem.imp_right fun hcalled => ?_, fun b hb => hbest b (hb.imp_right hcall)⟩
    refine mem_inOrder_mergeAll.mpr ⟨hcalled, fun b hb => hbest b (.inr hb)⟩

end Works

end IndexSync
