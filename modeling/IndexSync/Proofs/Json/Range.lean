import Mathlib.Algebra.Group.Int.Defs
import Mathlib.Algebra.Group.Nat.Defs
import IndexSync.Proofs.Json.Printed

/-!
# Integers of documents

Whatever text is read, the integers of the document have 64 bits, with a sign or without, at
any depth; those of its normal form are among them.

- `Json.InRange` — all integers of a document have 64 bits.
- `Json.inRange_parse?` — so have those of a document that was read.
- `Json.inRange_sorted`, `Json.nodup_names_of_sorted` — in its normal form, no name is
  repeated besides.
-/

namespace IndexSync.Json

/-- All integers, at any depth, have 64 bits, with a sign or without. -/
inductive InRange : Json → Prop
  | null : InRange null
  | bool (b : Bool) : InRange (bool b)
  | integer {n : Int} : -2 ^ 63 ≤ n → n < 2 ^ 64 → InRange (integer n)
  | real (x : Double) : InRange (number (.real x))
  | string (s : String) : InRange (string s)
  | array {items : List Json} : (∀ j ∈ items, InRange j) → InRange (array items)
  | object {members : List (String × Json)} : (∀ m ∈ members, InRange m.2) →
      InRange (object members)
  | beyond : InRange beyond

theorem InRange.item {items : List Json} {j : Json} (h : (Json.array items).InRange)
    (hj : j ∈ items) : j.InRange := by
  cases h with
  | array hitems => exact hitems j hj

theorem InRange.member {members : List (String × Json)} {m : String × Json}
    (h : (Json.object members).InRange) (hm : m ∈ members) : m.2.InRange := by
  cases h with
  | object hmembers => exact hmembers m hm

/-! ## Numbers -/

theorem value_push_lt {s : Significand} (h : s.value < UInt64.size) (c : Char) :
    (s.push c).value < UInt64.size := by
  unfold Significand.push
  dsimp only
  split
  · rename_i hfits
    exact hfits.2
  · exact h

theorem value_foldl_push_lt {s : Significand} (h : s.value < UInt64.size) (digits : List Char) :
    (digits.foldl Significand.push s).value < UInt64.size := by
  induction digits generalizing s with
  | nil => exact h
  | cons c digits ih => exact ih (value_push_lt h c)

theorem inRange_realNumber (negative : Bool) (significand : Nat) (exponent : Int) :
    (realNumber negative significand exponent).InRange := by
  unfold realNumber
  split
  · exact .beyond
  · exact .real _

theorem inRange_plainNumber {s : Significand} (h : s.value < UInt64.size) (negative : Bool) :
    (plainNumber negative s).InRange := by
  have hsize : UInt64.size = 2 ^ 64 := rfl
  have hcast : Int.ofNat s.value = (s.value : Int) := rfl
  unfold plainNumber
  split
  · exact .integer (by omega) (by omega)
  · split
    · exact .integer (by omega) (by omega)
    · exact inRange_realNumber _ _ _

theorem inRange_takeMagnitude? {negative : Bool} {s rest : List Char} {j : Json}
    (h : takeMagnitude? negative s = some (j, rest)) : j.InRange := by
  unfold takeMagnitude? at h
  dsimp only at h
  split at h
  · cases h
  · split at h
    · split at h
      · cases h
      · split at h
        · cases h
        · cases h
          exact inRange_realNumber _ _ _
    · split at h
      · cases h
      · cases h
        exact inRange_realNumber _ _ _
    · split at h
      · cases h
      · cases h
        exact inRange_realNumber _ _ _
    · cases h
      exact inRange_plainNumber (value_foldl_push_lt (by decide) _) _

theorem inRange_takeNumber? {s rest : List Char} {j : Json}
    (h : takeNumber? s = some (j, rest)) : j.InRange := by
  unfold takeNumber? at h
  split at h <;> exact inRange_takeMagnitude? h

/-! ## Documents -/

-- The readers call one another with a smaller bound; what was found so far is in range.

mutual

theorem inRange_takeValue? : ∀ (bound : Nat) {s rest : List Char} {j : Json},
    takeValue? bound s = some (j, rest) → j.InRange
  | 0, _, _, _, h => by cases h
  | bound + 1, s, rest, j, h => by
      unfold takeValue? at h
      split at h
      · cases h
        exact .null
      · cases h
        exact .bool true
      · cases h
        exact .bool false
      · obtain ⟨⟨text, _⟩, -, heq⟩ := Option.map_eq_some_iff.mp h
        cases heq
        cases text with
        | none => exact .beyond
        | some text => exact .string text
      · split at h
        · cases h
          exact .array (List.forall_mem_nil _)
        · exact inRange_takeItems? bound (List.forall_mem_nil _) h
      · split at h
        · cases h
          exact .object (List.forall_mem_nil _)
        · exact inRange_takeMembers? bound (by simp) h
      · exact inRange_takeNumber? h

theorem inRange_takeItems? : ∀ (bound : Nat) {found : List Json} {s rest : List Char} {j : Json},
    (∀ i ∈ found, i.InRange) → takeItems? bound found s = some (j, rest) → j.InRange
  | 0, _, _, _, _, _, h => by cases h
  | bound + 1, found, s, rest, j, hfound, h => by
      unfold takeItems? at h
      split at h
      · cases h
      · rename_i item _ hitem
        have hmore : ∀ i ∈ item :: found, i.InRange :=
          List.forall_mem_cons.mpr ⟨inRange_takeValue? bound hitem, hfound⟩
        split at h
        · exact inRange_takeItems? bound hmore h
        · cases h
          exact .array fun i hi => hmore i (List.mem_reverse.mp hi)
        · cases h

theorem inRange_takeMembers? : ∀ (bound : Nat) {found : Option (List (String × Json))}
    {s rest : List Char} {j : Json}, (∀ members ∈ found, ∀ m ∈ members, m.2.InRange) →
    takeMembers? bound found s = some (j, rest) → j.InRange
  | 0, _, _, _, _, _, h => by cases h
  | bound + 1, found, s, rest, j, hfound, h => by
      unfold takeMembers? at h
      split at h
      · cases h
      · rename_i name _ _
        split at h
        · split at h
          · cases h
          · rename_i value _ hvalue
            have hmore : ∀ members ∈ (do return (← name, value) :: (← found) : Option _),
                ∀ m ∈ members, m.2.InRange := by
              intro members hmembers
              simp only [Option.mem_def, Option.bind_eq_bind, Option.bind_eq_some_iff,
                Option.pure_def, Option.some.injEq] at hmembers
              obtain ⟨_, -, before, hbefore, rfl⟩ := hmembers
              exact List.forall_mem_cons.mpr
                ⟨inRange_takeValue? bound hvalue, hfound before hbefore⟩
            dsimp only at h
            split at h
            · exact inRange_takeMembers? bound hmore h
            · generalize (do return (← name, value) :: (← found) : Option _) = more at h hmore
              cases h
              cases more with
              | none => exact .beyond
              | some members =>
                  exact .object fun m hm => hmore members rfl m (List.mem_reverse.mp hm)
            · cases h
        · cases h

end

/-- A document that was read has integers of 64 bits. -/
theorem inRange_parse? {text : String} {j : Json} (h : parse? text = some j) : j.InRange := by
  unfold parse? at h
  dsimp only at h
  split at h
  · rename_i hvalue
    split at h
    · cases h
      exact inRange_takeValue? _ hvalue
    · cases h
  · cases h

/-! ## Normal forms -/

theorem sortedAll_eq_map (items : List Json) : sorted.sortedAll items = items.map sorted := by
  induction items with
  | nil => rfl
  | cons j rest ih => rw [sorted.sortedAll, List.map_cons, ih]

theorem sortedMembers_eq_map (members : List (String × Json)) :
    sorted.sortedMembers members = members.map fun m => (m.1, m.2.sorted) := by
  induction members with
  | nil => rfl
  | cons m rest ih => rw [sorted.sortedMembers, List.map_cons, ih]

/-- What an ordered map lists is what it was made of. -/
theorem mem_of_mem_toList_ofList {members : List (String × Json)} {m : String × Json}
    (h : m ∈ (Std.ExtTreeMap.ofList members compare).toList) : m ∈ members := by
  obtain ⟨name, j⟩ := m
  rw [Std.ExtTreeMap.mem_toList_iff_getElem?_eq_some,
    Std.ExtTreeMap.ofList_eq_insertMany_empty] at h
  suffices hinsert : ∀ start : SortedMap String Json,
      (start.insertMany members)[name]? = some j → start[name]? = some j ∨ (name, j) ∈ members from
    (hinsert ∅ h).resolve_left (by simp)
  clear h
  induction members with
  | nil => exact fun _ => .inl
  | cons first rest ih =>
      intro start hname
      rw [Std.ExtTreeMap.insertMany_cons] at hname
      rcases ih _ hname with hstart | hrest
      · rw [Std.ExtTreeMap.getElem?_insert] at hstart
        split at hstart
        · rename_i heq
          cases Std.LawfulEqCmp.eq_of_compare heq
          cases hstart
          exact .inr List.mem_cons_self
        · exact .inl hstart
      · exact .inr (.tail _ hrest)

/-- The normal form has the integers of the document. -/
theorem inRange_sorted {j : Json} (h : j.InRange) : j.sorted.InRange := by
  induction j using Json.induction with
  | null => exact h
  | bool => exact h
  | number => exact h
  | string => exact h
  | beyond => exact h
  | array items ih =>
      rw [sorted, sortedAll_eq_map]
      refine .array fun j hj => ?_
      obtain ⟨i, hi, rfl⟩ := List.mem_map.mp hj
      exact ih i hi (h.item hi)
  | object members ih =>
      rw [sorted, sortedMembers_eq_map]
      refine .object fun m hm => ?_
      obtain ⟨m', hm', rfl⟩ := List.mem_map.mp (mem_of_mem_toList_ofList hm)
      exact ih m' hm' (h.member hm')

/-- No name is repeated in a normal form. -/
theorem nodup_names_of_sorted {j : Json} {members : List (String × Json)}
    (h : j.sorted = .object members) : (members.map (·.1)).Nodup := by
  cases j with
  | object found =>
      cases h
      rw [Std.ExtTreeMap.map_fst_toList_eq_keys]
      exact Std.ExtTreeMap.nodup_keys
  | null | bool | number | string | array | beyond => cases h

end IndexSync.Json
