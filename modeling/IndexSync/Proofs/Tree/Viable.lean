import IndexSync.Proofs.Tree.Building
import IndexSync.Proofs.Tree.Sequences

/-!
# Sequences that have nodes

A tree has nodes only for sequences that lead to a document part.

- `Mapping.Viable` — each landing of the sequence is on a type with concrete ones,
  the last one on a type one of which has a document part.
- `Layout.Branch.exists_node`, `Layout.Branch.exists_viable` — a branch has a node
  if, and only if, some sequence through it is viable.
-/

namespace IndexSync

variable {schema : Schema} {mapping : Mapping schema}

/-- The sequence ends at a type with a document part below it, and lands nowhere else but
at types with concrete ones below them. -/
def Mapping.Viable (mapping : Mapping schema) : List Move → Prop
  | [] => False
  | [move] => ∃ type, move = .land type ∧
      ∃ c ∈ schema.concretesUnder type, mapping.hasPart c = true
  | move :: next :: rest =>
      (∀ type, move = .land type → schema.concretesUnder type ≠ []) ∧ Viable mapping (next :: rest)

/-- A viable sequence ends with a landing where some type has a part. -/
theorem Mapping.Viable.exists_land {ms : List Move} (h : mapping.Viable ms) :
    ∃ before type, ms = before ++ [.land type] ∧
      ∃ c ∈ schema.concretesUnder type, mapping.hasPart c = true := by
  induction ms with
  | nil => exact h.elim
  | cons move rest ih =>
      cases rest with
      | nil =>
          obtain ⟨type, rfl, hpart⟩ := h
          exact ⟨[], type, rfl, hpart⟩
      | cons next rest =>
          obtain ⟨before, type, hrest, hpart⟩ := ih h.2
          exact ⟨move :: before, type, by rw [hrest, List.cons_append], hpart⟩

/-- Which sequences are viable depends on the types with a part alone. -/
theorem Mapping.viable_congr {mapping' : Mapping schema}
    (hparts : mapping.hasPart = mapping'.hasPart) : mapping.Viable = mapping'.Viable := by
  funext ms
  induction ms with
  | nil => rfl
  | cons move rest ih =>
      cases rest with
      | nil => simp only [Viable, hparts]
      | cons next rest => simp only [Viable, ih]

namespace Layout

variable {l : Layout} {rule : FilterRule} {relevance : OrdinalSet} {ended : Option OrdinalSet}
  {continuation id? here : Option NodeId} {ids : List NodeId} {id k : NodeId} {move : Move}

/-! ## Single nodes -/

theorem Joins.exists_of_mem (h : l.Joins ids id?) (hid : id ∈ ids) : ∃ u, id? = some u := by
  cases h with
  | none => cases hid
  | one => exact ⟨_, rfl⟩
  | union => exact ⟨_, rfl⟩

theorem Joins.exists_mem (h : l.Joins ids (some id)) : ∃ i, i ∈ ids := by
  cases h with
  | one => exact ⟨id, List.mem_singleton_self id⟩
  | union _ _ hmany => exact List.exists_mem_of_length_pos (Nat.zero_lt_of_lt hmany)

theorem Filters.exists_behind (h : l.Filters rule relevance (some id) here) :
    ∃ u, here = some u := by
  cases h with
  | free => exact ⟨_, rfl⟩
  | behind => exact ⟨_, rfl⟩

theorem Filters.exists_before (h : l.Filters rule relevance id? (some id)) :
    ∃ u, id? = some u := by
  cases h with
  | free => exact ⟨_, rfl⟩
  | behind => exact ⟨_, rfl⟩

/-- Where something continues, there is an entry for every type. -/
theorem Enters.exists_of_continuation {c : TypeName} {entry : Option NodeId}
    (h : l.Enters rule ended (some k) c entry) : ∃ u, entry = some u := by
  obtain ⟨own, -, hjoin⟩ := h
  have hk : k ∈ own.toList ++ (some k).toList := by simp
  exact hjoin.exists_of_mem hk

theorem Lands.exists_of_enters {static : TypeName} {concretes : List TypeName}
    (h : l.Lands rule static concretes ended continuation id?) {c : TypeName} (hc : c ∈ concretes)
    (henter : ∀ entry, l.Enters rule ended continuation c entry → ∃ u, entry = some u) :
    ∃ u, id? = some u := by
  cases h with
  | nowhere hall =>
      obtain ⟨_, hnone⟩ := henter _ (hall c hc)
      cases hnone
  | somewhere => exact ⟨_, rfl⟩

/-- The move towards what continues has a node. -/
theorem Makes.exists_node {ms : List Move} {next : Move}
    (h : l.Makes schema rule ended (some k) move id?)
    (hviable : mapping.Viable (move :: next :: ms)) : ∃ id, id? = some id := by
  cases move with
  | read | extract | cast =>
      cases h with
      | some => exact ⟨_, rfl⟩
  | land type =>
      obtain ⟨c, hc⟩ := List.exists_mem_of_ne_nil _ (hviable.1 type rfl)
      exact Lands.exists_of_enters h hc fun entry henter => henter.exists_of_continuation

variable (hsound : l.Sound mapping [])
include hsound

/-- Where sequences have ended, there is an entry for every type with a part. -/
theorem Enters.exists_of_ended {c : TypeName} {entry : Option NodeId}
    (h : l.Enters rule (some relevance) continuation c entry) (hpart : mapping.hasPart c = true) :
    ∃ u, entry = some u := by
  obtain ⟨own, hown, hjoin⟩ := h
  cases hown with
  | @ended _ part _ hknown hfilter =>
      cases part with
      | none => exact absurd (hpart.symm.trans (hsound.absent hknown)) nofun
      | some place =>
          obtain ⟨u, rfl⟩ := hfilter.exists_behind
          have hu : u ∈ (some u).toList ++ continuation.toList := by simp
          exact hjoin.exists_of_mem hu

/-- An entry is for a part where sequences have ended, or for what continues. -/
theorem Enters.ended_or_continuation {c : TypeName}
    (h : l.Enters rule ended continuation c (some id)) :
    (∃ relevance, ended = some relevance) ∧ mapping.hasPart c = true ∨
      ∃ k, continuation = some k := by
  obtain ⟨own, hown, hjoin⟩ := h
  obtain ⟨i, hi⟩ := hjoin.exists_mem
  rcases List.mem_append.mp hi with hi | hi
  · cases Option.mem_toList.mp hi
    cases hown with
    | ended hknown hfilter =>
        obtain ⟨place, rfl⟩ := hfilter.exists_before
        exact .inl ⟨⟨_, rfl⟩, hsound.present hknown⟩
  · exact .inr ⟨i, Option.mem_toList.mp hi⟩

/-! ## Branches -/

variable {S : SequenceSet} {t : Trie}

/-- A viable sequence has nodes for all its moves. -/
theorem Branch.exists_node {ms : List Move} {bits : OrdinalSet}
    (h : l.Branch schema rule move t id?) (hmerge : t.Merges S) (hms : S ms bits)
    (hviable : mapping.Viable (move :: ms)) : ∃ id, id? = some id := by
  -- on the moves, as the trie branches along them; the last one is the landing
  induction ms generalizing rule move t id? S with
  | nil =>
      obtain ⟨type, rfl, c, hc, hpart⟩ := hviable
      obtain ⟨relevance, hended, -⟩ := hmerge.exists_ended hms
      cases t with
      | fork ended branches =>
          rw [Branch] at h
          obtain ⟨ids, continuation, -, -, hmake⟩ := h
          cases hended
          refine Lands.exists_of_enters hmake hc fun entry henter => ?_
          exact henter.exists_of_ended hsound hpart
  | cons next ms ih =>
      obtain ⟨relevance, t', hmem, -, hnext⟩ := hmerge.exists_branch hms
      cases t with
      | fork ended branches =>
          rw [Branch] at h
          obtain ⟨ids, continuation, hids, hjoin, hmake⟩ := h
          obtain ⟨id?', here, hbranch, hfilter, hsub⟩ := hids.exists_node hmem
          obtain ⟨id, rfl⟩ := ih hbranch hnext hms hviable.2
          obtain ⟨u, rfl⟩ := hfilter.exists_behind
          obtain ⟨k, rfl⟩ := hjoin.exists_of_mem (hsub (by simp) : u ∈ ids)
          exact hmake.exists_node hviable

/-- A node stands for a viable sequence. -/
theorem Branch.exists_viable (h : l.Branch schema rule move t (some id)) (hmerge : t.Merges S) :
    ∃ ms bits, S ms bits ∧ mapping.Viable (move :: ms) := by
  -- on the trie; what continues after the move stands for a viable rest
  induction hmerge generalizing rule move id with
  | @fork S ended branches hends _ _ hmoves _ hnext ih =>
      rw [Branch] at h
      obtain ⟨ids, continuation, hids, hjoin, hmake⟩ := h
      have hcontinue : ∀ {k}, continuation = some k →
          ∃ next ms bits, S (next :: ms) bits ∧ mapping.Viable (next :: ms) := by
        rintro k rfl
        obtain ⟨i, hi⟩ := hjoin.exists_mem
        obtain ⟨next, relevance, t', id?, hmem, hbranch, hfilter⟩ := hids.of_mem hi
        obtain ⟨u, rfl⟩ := hfilter.exists_before
        obtain ⟨ms, bits, hms, hviable⟩ := ih next relevance t' hmem hbranch
        exact ⟨next, ms, bits, hms, hviable⟩
      cases move with
      | read | extract | cast =>
          cases hmake with
          | some =>
              obtain ⟨next, ms, bits, hms, hviable⟩ := hcontinue rfl
              exact ⟨next :: ms, bits, hms, nofun, hviable⟩
      | land type =>
          cases hmake with
          | somewhere _ hall hkeys hsome =>
              obtain ⟨c, entry, hentry⟩ := hsome
              have hc := hkeys c entry hentry
              have henter := hall c hc
              rw [hentry] at henter
              rcases henter.ended_or_continuation hsound with ⟨⟨_, rfl⟩, hpart⟩ | ⟨k, rfl⟩
              · obtain ⟨bits, hbits⟩ := hends.mp rfl
                exact ⟨[], bits, hbits, type, rfl, c, hc, hpart⟩
              · obtain ⟨next, ms, bits, hms, hviable⟩ := hcontinue rfl
                refine ⟨next :: ms, bits, hms, ?_, hviable⟩
                rintro _ ⟨⟩
                exact List.ne_nil_of_mem hc

end Layout

end IndexSync
