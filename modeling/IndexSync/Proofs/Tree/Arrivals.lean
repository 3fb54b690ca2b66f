import IndexSync.Proofs.Tree.Arrangement
import IndexSync.Proofs.Walk.Expansion

/-!
# Ways to document parts

Merging sequences of moves loses none of them, makes none up, and keeps apart what matters
to each.

- `Layout.Arrives` — a way from a node to the first document part: the moves made, what the
  filters on it ask for, and the part.
- `FilterRule.innermost` — what the last filter asks for, whether it stands on the way or
  around it.
- `Branches.of_arrival`, `Branches.exists_arrival` — the ways from branches are the viable
  sequences, each behind a filter for exactly the ordinals that it was entered with.
- `ChangeTree.merges_without_loss` — the same for the triggers of a type, and how filters
  nest.
-/

namespace IndexSync

namespace FilterRule

/-- What the filter around asks for. -/
def enclosing? : FilterRule → Option OrdinalSet
  | below enclosing => some enclosing
  | never | always => none

/-- What the innermost filter asks for, behind filters on a way under the rule. -/
def innermost (rule : FilterRule) (guards : List OrdinalSet) : Option OrdinalSet :=
  guards.getLast?.or rule.enclosing?

/-- What the filter in front of something asks for, where one belongs. -/
def guard (rule : FilterRule) (relevance : OrdinalSet) : List OrdinalSet :=
  if rule.narrows relevance then [relevance] else []

variable {rule : FilterRule} {relevance : OrdinalSet}

theorem innermost_guard (h : rule.Bounds (· = relevance)) (guards : List OrdinalSet) :
    rule.innermost (rule.guard relevance ++ guards) = (rule.inside relevance).innermost guards := by
  unfold guard
  cases hn : rule.narrows relevance with
  | false =>
      rw [inside_of_free h hn]
      rfl
  | true =>
      have hinside : (rule.inside relevance).enclosing? = some relevance := by
        cases rule with
        | never => cases hn
        | always | below => rfl
      rw [innermost, innermost, hinside, if_pos rfl, List.getLast?_append, Option.or_assoc]
      rfl

theorem innermost_nil (h : rule ≠ never) :
    (rule.inside relevance).innermost [] = some relevance := by
  cases rule with
  | never => exact absurd rfl h
  | always | below => rfl

theorem inside_ne_never (h : rule ≠ never) : rule.inside relevance ≠ never := by
  cases rule with
  | never => exact absurd rfl h
  | always | below => nofun

end FilterRule

namespace Layout

variable {schema : Schema} {mapping : Mapping schema} {l : Layout} {rule : FilterRule}
  {relevance : OrdinalSet} {ended : Option OrdinalSet} {continuation id? : Option NodeId}
  {ids : List NodeId} {id k place : NodeId} {move : Move} {node : Node} {ms : List Move}
  {guards : List OrdinalSet}

/-- A way from a node to the first document part on it. -/
inductive Arrives (l : Layout) : NodeId → List Move → List OrdinalSet → NodeId → Prop
  | part {id : NodeId} : l.IsPart id → Arrives l id [] [] id
  | onward {id next place : NodeId} {node : Node} {ms : List Move} {guards : List OrdinalSet} :
      ¬ l.IsPart id → l.arena.get? id = some node → next ∈ node.children →
      Arrives l next ms guards place →
      Arrives l id (node.move?.toList ++ ms) (node.relevance?.toList ++ guards) place

/-! ## Single nodes -/

theorem Arrives.isPart (h : l.Arrives id ms guards place) : l.IsPart place := by
  induction h with
  | part hpart => exact hpart
  | onward _ _ _ _ ih => exact ih

theorem arrives_part_iff (h : l.IsPart id) :
    l.Arrives id ms guards place ↔ ms = [] ∧ guards = [] ∧ place = id := by
  constructor
  · intro harrive
    cases harrive with
    | part => exact ⟨rfl, rfl, rfl⟩
    | onward hpart => exact absurd h hpart
  · rintro ⟨rfl, rfl, rfl⟩
    exact .part h

theorem arrives_iff (hpart : ¬ l.IsPart id) (hnode : l.arena.get? id = some node) :
    l.Arrives id ms guards place ↔ ∃ next ∈ node.children, ∃ ms' guards',
      ms = node.move?.toList ++ ms' ∧ guards = node.relevance?.toList ++ guards' ∧
        l.Arrives next ms' guards' place := by
  constructor
  · intro harrive
    cases harrive with
    | part h => exact absurd h hpart
    | onward _ hnode' hnext hrest =>
        cases hnode'.symm.trans hnode
        exact ⟨_, hnext, _, _, rfl, rfl, hrest⟩
  · rintro ⟨next, hnext, ms', guards', rfl, rfl, hrest⟩
    exact .onward hpart hnode hnext hrest

section

variable (hsound : l.Sound mapping [])
include hsound

theorem Filters.arrives_iff {u : NodeId} (h : l.Filters rule relevance (some id) (some u)) :
    l.Arrives u ms guards place ↔
      ∃ guards', guards = rule.guard relevance ++ guards' ∧ l.Arrives id ms guards' place := by
  cases h with
  | free hn => simp [FilterRule.guard, hn]
  | behind hn hu =>
      rw [Layout.arrives_iff (hsound.not_isPart hu nofun) hu]
      simp [FilterRule.guard, hn, Node.children, Node.move?, Node.relevance?]

theorem Joins.arrives_iff {u : NodeId} (h : l.Joins ids (some u))
    (hids : ∀ id ∈ ids, l.arena.get? id ≠ some .reindex) :
    l.Arrives u ms guards place ↔ ∃ id ∈ ids, l.Arrives id ms guards place := by
  cases h with
  | one => simp
  | union hu _ hmany =>
      rw [Layout.arrives_iff (hsound.not_isPart_of_union hu hmany hids) hu]
      simp [Node.children, Node.move?, Node.relevance?]

/-- A way that ends at once, in the part of the type that has been come to. -/
def ArrivesOwn (l : Layout) (rule : FilterRule) (ended : Option OrdinalSet) (c : TypeName)
    (ms : List Move) (guards : List OrdinalSet) (place : NodeId) : Prop :=
  ms = [] ∧ l.parts[c]? = some (some place) ∧
    ∃ relevance, ended = some relevance ∧ guards = rule.guard relevance

theorem Owns.arrives_iff {c : TypeName} {own : Option NodeId} (h : l.Owns rule c ended own) :
    (∃ id ∈ own, l.Arrives id ms guards place) ↔ l.ArrivesOwn rule ended c ms guards place := by
  cases h with
  | unended => simp [ArrivesOwn]
  | @ended relevance part _ hknown hfilter =>
      cases part with
      | none =>
          cases hfilter
          simp [ArrivesOwn, hknown]
      | some own =>
          obtain ⟨u, rfl⟩ := hfilter.exists_behind
          constructor
          · rintro ⟨_, ⟨⟩, harrive⟩
            obtain ⟨guards', rfl, hrest⟩ := (hfilter.arrives_iff hsound).mp harrive
            obtain ⟨rfl, rfl, rfl⟩ := (arrives_part_iff ⟨c, hknown⟩).mp hrest
            exact ⟨rfl, hknown, relevance, rfl, List.append_nil _⟩
          · rintro ⟨rfl, hplace, _, ⟨⟩, rfl⟩
            cases hplace.symm.trans hknown
            refine ⟨u, rfl, (hfilter.arrives_iff hsound).mpr ⟨[], ?_, .part ⟨c, hknown⟩⟩⟩
            exact (List.append_nil _).symm

theorem Enters.arrives_iff {c : TypeName} (h : l.Enters rule ended continuation c id?)
    (hcontinue : ∀ k ∈ continuation, l.arena.get? k ≠ some .reindex) :
    (∃ id ∈ id?, l.Arrives id ms guards place) ↔
      l.ArrivesOwn rule ended c ms guards place ∨
        ∃ k ∈ continuation, l.Arrives k ms guards place := by
  obtain ⟨own, hown, hjoin⟩ := h
  have hids : ∀ id ∈ own.toList ++ continuation.toList, l.arena.get? id ≠ some .reindex := by
    intro id hid
    rcases List.mem_append.mp hid with hid | hid
    · cases Option.mem_toList.mp hid
      exact hown.unmarked hsound
    · exact hcontinue id (Option.mem_toList.mp hid)
  have hsplit : (∃ id ∈ own.toList ++ continuation.toList, l.Arrives id ms guards place) ↔
      l.ArrivesOwn rule ended c ms guards place ∨
        ∃ k ∈ continuation, l.Arrives k ms guards place := by
    simp [← hown.arrives_iff hsound, or_and_right, exists_or]
  rw [← hsplit]
  cases id? with
  | none =>
      generalize own.toList ++ continuation.toList = ids at hjoin
      cases hjoin
      simp
  | some u => simp [hjoin.arrives_iff hsound hids]

theorem Lands.arrives_iff {static : TypeName} {concretes : List TypeName}
    (h : l.Lands rule static concretes ended continuation id?)
    (hcontinue : ∀ k ∈ continuation, l.arena.get? k ≠ some .reindex) :
    (∃ id ∈ id?, l.Arrives id ms guards place) ↔ ∃ ms', ms = .land static :: ms' ∧
      ∃ c ∈ concretes, l.ArrivesOwn rule ended c ms' guards place ∨
        ∃ k ∈ continuation, l.Arrives k ms' guards place := by
  cases h with
  | nowhere hall =>
      constructor
      · nofun
      · rintro ⟨ms', -, c, hc, hrest⟩
        exact ((hall c hc).arrives_iff hsound hcontinue).mpr hrest |>.elim nofun
  | @somewhere u dispatch hu hall hkeys =>
      have honward := @Layout.arrives_iff l u place _ ms guards
            (hsound.not_isPart_of_move? hu rfl) hu
      constructor
      · rintro ⟨_, ⟨⟩, harrive⟩
        obtain ⟨next, hnext, ms', guards', rfl, rfl, hrest⟩ := honward.mp harrive
        obtain ⟨c, hc⟩ := SortedMap.exists_of_mem_contents hnext
        have hmem := hkeys c next hc
        exact ⟨ms', rfl, c, hmem,
          ((hall c hmem).arrives_iff hsound hcontinue).mp ⟨next, hc, hrest⟩⟩
      · rintro ⟨ms', rfl, c, hmem, harrive⟩
        obtain ⟨next, hc, hrest⟩ := ((hall c hmem).arrives_iff hsound hcontinue).mpr harrive
        exact ⟨u, rfl, honward.mpr
          ⟨next, SortedMap.mem_contents hc, ms', guards, rfl, rfl, hrest⟩⟩

/-- Where sequences have ended, it is known whether a type has a part. -/
theorem Lands.exists_part {static c : TypeName} {concretes : List TypeName}
    (h : l.Lands rule static concretes (some relevance) continuation id?) (hc : c ∈ concretes)
    (hpart : mapping.hasPart c = true) : ∃ place, l.parts[c]? = some (some place) := by
  have hall : ∃ entry, l.Enters rule (some relevance) continuation c entry := by
    cases h with
    | nowhere hall => exact ⟨_, hall c hc⟩
    | somewhere _ hall => exact ⟨_, hall c hc⟩
  obtain ⟨_, own, hown, -⟩ := hall
  cases hown with
  | @ended _ part _ hknown =>
      cases part with
      | none => exact absurd (hpart.symm.trans (hsound.absent hknown)) nofun
      | some place => exact ⟨place, hknown⟩

theorem Makes.arrives_iff (h : l.Makes schema rule ended continuation move id?)
    (hcontinue : ∀ k ∈ continuation, l.arena.get? k ≠ some .reindex) :
    (∃ id ∈ id?, l.Arrives id ms guards place) ↔ ∃ ms', ms = move :: ms' ∧
      ((∃ type c, move = .land type ∧ c ∈ schema.concretesUnder type ∧
          l.ArrivesOwn rule ended c ms' guards place) ∨
        (∀ type, move = .land type → schema.concretesUnder type ≠ []) ∧
          ∃ k ∈ continuation, l.Arrives k ms' guards place) := by
  cases move with
  | read | extract | cast =>
      cases h with
      | none => simp
      | @some k u hu =>
          have honward := @Layout.arrives_iff l u place _ ms guards
            (hsound.not_isPart_of_move? hu rfl) hu
          simp [honward, Node.children, Node.move?, Node.relevance?]
  | land type =>
      refine (Lands.arrives_iff hsound h hcontinue).trans ?_
      refine exists_congr fun ms' => and_congr_right fun _ => ?_
      constructor
      · rintro ⟨c, hc, howned | hcontinued⟩
        · exact .inl ⟨type, c, rfl, hc, howned⟩
        · refine .inr ⟨?_, hcontinued⟩
          rintro _ ⟨⟩
          exact List.ne_nil_of_mem hc
      · rintro (⟨_, c, ⟨⟩, hc, howned⟩ | ⟨hsome, hcontinued⟩)
        · exact ⟨c, hc, .inl howned⟩
        · obtain ⟨c, hc⟩ := List.exists_mem_of_ne_nil _ (hsome type rfl)
          exact ⟨c, hc, .inr hcontinued⟩

/-! ## Merged sequences -/

variable {t : Trie} {S : SequenceSet}

theorem Branches.unmarked_continuation (hmerge : t.Merges S)
    (h : l.Branches schema rule t.branches ids)
    (hbounds : rule.Bounds fun bits => ∃ ms, S ms bits) (hjoin : l.Joins ids continuation) :
    (∀ id ∈ ids, l.arena.get? id ≠ some .reindex) ∧
      ∀ k ∈ continuation, l.arena.get? k ≠ some .reindex := by
  have hfront := h.front hsound hmerge hbounds
  refine ⟨hfront.unmarked, ?_⟩
  rintro k rfl
  exact (hjoin.front hfront).unmarked k (List.mem_singleton_self k)

/-- A way from branches makes the moves of a viable sequence, and the innermost filter on it
asks for the ordinals of that sequence. -/
theorem Branches.of_arrival (hmerge : t.Merges S) (h : l.Branches schema rule t.branches ids)
    (hbounds : rule.Bounds fun bits => ∃ ms, S ms bits) (hid : id ∈ ids)
    (harrive : l.Arrives id ms guards place) :
    (∃ bits, S ms bits) ∧ mapping.Viable ms ∧
      (rule ≠ .never → ∃ relevance, rule.innermost guards = some relevance ∧
        relevance.IsUnion (S ms)) := by
  -- on the trie; behind the move of a branch, the way goes on inside the branch's filter
  induction hmerge generalizing rule ids id ms guards with
  | @fork S ended branches _ _ _ _ hunion hnext ih =>
      obtain ⟨move, relevance, t, id?, hmem, hbranch, hfilter⟩ := h.of_mem hid
      obtain ⟨u, rfl⟩ := hfilter.exists_before
      obtain ⟨guards, rfl, hrest⟩ := (hfilter.arrives_iff hsound).mp harrive
      have hmoves := hunion move relevance t hmem
      have hmerge := hnext move relevance t hmem
      have hinside : (rule.inside relevance).Bounds fun bits => ∃ ms, S.after move ms bits :=
        FilterRule.bounds_inside hmoves
      have hrelevance : rule.Bounds (· = relevance) :=
        (hbounds.mono fun bits ⟨ms, hms⟩ => ⟨move :: ms, hms⟩).of_isUnion hmoves
      have hih := @ih move relevance t hmem
      rw [FilterRule.innermost_guard hrelevance]
      cases t with
      | fork ended branches =>
          rw [Branch] at hbranch
          obtain ⟨ids, continuation, hids, hjoin, hmake⟩ := hbranch
          obtain ⟨hunmarked, hcontinue⟩ := hids.unmarked_continuation hsound hmerge hinside hjoin
          obtain ⟨ms, rfl, hcases⟩ := (hmake.arrives_iff hsound hcontinue).mp ⟨u, rfl, hrest⟩
          rcases hcases with ⟨type, c, rfl, hc, howned⟩ | ⟨hsome, k, hk, hcontinued⟩
          · obtain ⟨rfl, hplace, relevance', hended, rfl⟩ := howned
            obtain ⟨hbits, hunion'⟩ := hmerge.of_ended hended
            have hrelevance' : (rule.inside relevance).Bounds (· = relevance') :=
              (hinside.mono fun bits hbits => ⟨[], hbits⟩).of_isUnion hunion'
            refine ⟨hbits, ⟨type, rfl, c, hc, hsound.present hplace⟩, fun hrule => ?_⟩
            refine ⟨relevance', ?_, hunion'⟩
            rw [← List.append_nil ((rule.inside relevance).guard relevance'),
              FilterRule.innermost_guard hrelevance']
            exact FilterRule.innermost_nil (FilterRule.inside_ne_never hrule)
          · cases hk
            obtain ⟨id', hid', harrive'⟩ := (hjoin.arrives_iff hsound hunmarked).mp hcontinued
            obtain ⟨hbits, hviable, hguard⟩ := hih hids hinside hid' harrive'
            refine ⟨hbits, ?_, fun hrule => hguard (FilterRule.inside_ne_never hrule)⟩
            cases ms with
            | nil => exact hviable.elim
            | cons next ms => exact ⟨hsome, hviable⟩

/-- There is a way for each viable sequence. -/
theorem Branches.exists_arrival {bits : OrdinalSet} (hmerge : t.Merges S)
    (h : l.Branches schema rule t.branches ids)
    (hbounds : rule.Bounds fun bits => ∃ ms, S ms bits) (hms : S ms bits)
    (hviable : mapping.Viable ms) : ∃ id ∈ ids, ∃ guards place, l.Arrives id ms guards place := by
  -- on the moves, as the trie branches along them; the last one is the landing
  induction ms generalizing rule t ids S with
  | nil => exact hviable.elim
  | cons move ms ih =>
      obtain ⟨relevance, t, hmem, hunion, hnext⟩ := hmerge.exists_branch hms
      obtain ⟨id?, here, hbranch, hfilter, hsub⟩ := h.exists_node hmem
      have hinside : (rule.inside relevance).Bounds fun bits => ∃ ms, S.after move ms bits :=
        FilterRule.bounds_inside hunion
      have hway : ∃ u ∈ id?, ∃ guards place, l.Arrives u (move :: ms) guards place := by
        cases t with
        | fork ended branches =>
            rw [Branch] at hbranch
            obtain ⟨ids, continuation, hids, hjoin, hmake⟩ := hbranch
            obtain ⟨hunmarked, hcontinue⟩ := hids.unmarked_continuation hsound hnext hinside hjoin
            cases ms with
            | nil =>
                obtain ⟨type, rfl, c, hc, hpart⟩ := hviable
                obtain ⟨relevance', hended, -⟩ := hnext.exists_ended hms
                cases hended
                obtain ⟨place, hplace⟩ := Lands.exists_part hsound hmake hc hpart
                have howned : l.ArrivesOwn (rule.inside relevance) (some relevance') c []
                    ((rule.inside relevance).guard relevance') place :=
                  ⟨rfl, hplace, relevance', rfl, rfl⟩
                obtain ⟨u, hu, harrive⟩ := (hmake.arrives_iff hsound hcontinue).mpr
                  ⟨[], rfl, .inl ⟨type, c, rfl, hc, howned⟩⟩
                exact ⟨u, hu, _, place, harrive⟩
            | cons next ms =>
                obtain ⟨id, hid, guards, place, harrive⟩ := ih hnext hids hinside hms hviable.2
                obtain ⟨k, rfl⟩ := hjoin.exists_of_mem hid
                have hcontinued := (hjoin.arrives_iff hsound hunmarked).mpr ⟨id, hid, harrive⟩
                obtain ⟨u, hu, harrive⟩ := (hmake.arrives_iff hsound hcontinue).mpr
                  ⟨next :: ms, rfl, .inr ⟨hviable.1, k, rfl, hcontinued⟩⟩
                exact ⟨u, hu, guards, place, harrive⟩
      obtain ⟨u, rfl, guards, place, harrive⟩ := hway
      obtain ⟨u', rfl⟩ := hfilter.exists_behind
      exact ⟨u', hsub (by simp), rule.guard relevance ++ guards, place,
        (hfilter.arrives_iff hsound).mpr ⟨guards, rfl, harrive⟩⟩

/-! ## Whole trees -/

variable {static : TypeName} {concretes : List TypeName}

/-- The ways from the root of a tree. -/
theorem Tree.of_arrival (hmerge : t.Merges S) (h : l.Tree schema rule static concretes t (some id))
    (hbounds : rule.Bounds fun bits => ∃ ms, S ms bits) (hrule : rule ≠ .never)
    (harrive : l.Arrives id ms guards place) :
    ∃ ms', ms = .land static :: ms' ∧ (∃ bits, S ms' bits) ∧
      (ms' = [] ∧ (∃ c ∈ concretes, mapping.hasPart c = true) ∨ mapping.Viable ms') ∧
      ∃ relevance, rule.innermost guards = some relevance ∧ relevance.IsUnion (S ms') := by
  obtain ⟨ids, continuation, hids, hjoin, hland⟩ := h
  obtain ⟨hunmarked, hcontinue⟩ := hids.unmarked_continuation hsound hmerge hbounds hjoin
  obtain ⟨ms, rfl, c, hc, howned | ⟨k, rfl, hcontinued⟩⟩ :=
    (hland.arrives_iff hsound hcontinue).mp ⟨id, rfl, harrive⟩
  · obtain ⟨rfl, hplace, relevance, hended, rfl⟩ := howned
    obtain ⟨hbits, hunion⟩ := hmerge.of_ended hended
    have hrelevance : rule.Bounds (· = relevance) :=
      (hbounds.mono fun bits hbits => ⟨[], hbits⟩).of_isUnion hunion
    refine ⟨[], rfl, hbits, .inl ⟨rfl, c, hc, hsound.present hplace⟩, relevance, ?_, hunion⟩
    rw [← List.append_nil (rule.guard relevance), FilterRule.innermost_guard hrelevance]
    exact FilterRule.innermost_nil hrule
  · obtain ⟨id', hid', harrive'⟩ := (hjoin.arrives_iff hsound hunmarked).mp hcontinued
    obtain ⟨hbits, hviable, hguard⟩ := hids.of_arrival hsound hmerge hbounds hid' harrive'
    exact ⟨ms, rfl, hbits, .inr hviable, hguard hrule⟩

theorem Tree.exists_arrival {root : Option NodeId} {bits : OrdinalSet} {c : TypeName}
    (hmerge : t.Merges S) (h : l.Tree schema rule static concretes t root)
    (hbounds : rule.Bounds fun bits => ∃ ms, S ms bits) (hc : c ∈ concretes) (hms : S ms bits)
    (hend : ms = [] ∧ mapping.hasPart c = true ∨ mapping.Viable ms) :
    ∃ id ∈ root, ∃ guards place, l.Arrives id (.land static :: ms) guards place := by
  obtain ⟨ids, continuation, hids, hjoin, hland⟩ := h
  obtain ⟨hunmarked, hcontinue⟩ := hids.unmarked_continuation hsound hmerge hbounds hjoin
  have hways : ∃ guards place, ∃ c ∈ concretes, l.ArrivesOwn rule t.ended c ms guards place ∨
      ∃ k ∈ continuation, l.Arrives k ms guards place := by
    rcases hend with ⟨rfl, hpart⟩ | hviable
    · obtain ⟨relevance, hended, -⟩ := hmerge.exists_ended hms
      rw [hended] at hland ⊢
      obtain ⟨place, hplace⟩ := hland.exists_part hsound hc hpart
      exact ⟨_, place, c, hc, .inl ⟨rfl, hplace, relevance, rfl, rfl⟩⟩
    · obtain ⟨id, hid, guards, place, harrive⟩ :=
        hids.exists_arrival hsound hmerge hbounds hms hviable
      obtain ⟨k, rfl⟩ := hjoin.exists_of_mem hid
      exact ⟨guards, place, c, hc, .inr ⟨k, rfl,
        (hjoin.arrives_iff hsound hunmarked).mpr ⟨id, hid, harrive⟩⟩⟩
  obtain ⟨guards, place, hway⟩ := hways
  obtain ⟨id, hid, harrive⟩ := (hland.arrives_iff hsound hcontinue).mpr ⟨ms, rfl, hway⟩
  exact ⟨id, hid, guards, place, harrive⟩

end

end Layout

/-! ## The ways of a type -/

/-- The sequence leads from objects of the type to a document part: there is one of the type
itself, or of some type that the sequence lands on. -/
def Mapping.EndsAtPart {schema : Schema} (mapping : Mapping schema) (type : TypeName)
    (ms : List Move) : Prop :=
  ms = [] ∧ mapping.hasPart type = true ∨ mapping.Viable ms

namespace ChangeTree

variable {defs : List TypeDef} {schema : Schema} {ds : Declarations} {mapping : Mapping schema}
  {type : TypeName} {tree : ChangeTree} {l : Layout}

/-- The ways from the root make the moves of the triggers that lead to a part. -/
theorem Built.arrival_iff (h : tree.Built mapping true type l) (ms : List Move) :
    (∃ root guards place, tree.root = some root ∧ l.Arrives root (.land type :: ms) guards place) ↔
      (∃ t, mapping.Applies type t ∧ t.moves = ms) ∧ mapping.EndsAtPart type ms := by
  have hmerge := Trie.merges_ofSequences (sequences mapping type).2
  constructor
  · rintro ⟨root, guards, place, hroot, harrive⟩
    have htree := hroot ▸ h.root
    obtain ⟨ms', heq, ⟨bits, hbits⟩, hend, -⟩ :=
      htree.of_arrival h.sound hmerge FilterRule.always_bounds nofun harrive
    obtain rfl := List.tail_eq_of_cons_eq heq
    obtain ⟨t, ht, hfits, rfl, -⟩ := mem_sequences hbits
    exact ⟨⟨t, ⟨ht, hfits⟩, rfl⟩, by simpa [Mapping.EndsAtPart] using hend⟩
  · rintro ⟨⟨t, ⟨ht, hfits⟩, rfl⟩, hend⟩
    obtain ⟨n, hms, -⟩ := exists_sequence ht hfits
    obtain ⟨root, hroot, guards, place, harrive⟩ := h.root.exists_arrival h.sound hmerge
      FilterRule.always_bounds (List.mem_singleton_self type) hms hend
    exact ⟨root, guards, place, hroot, harrive⟩

/-- The innermost filter on a way asks for what the triggers with its moves are about. -/
theorem Built.innermost_filter (h : tree.Built mapping true type l) {root place : NodeId}
    {ms : List Move} {guards : List OrdinalSet} (hroot : tree.root = some root)
    (harrive : l.Arrives root ms guards place) :
    ∃ ms' relevance, ms = .land type :: ms' ∧ guards.getLast? = some relevance ∧
      ∀ n, relevance.contains n = true ↔ ∃ t, mapping.Applies type t ∧ t.moves = ms' ∧
        tree.table.ordinal? t.dirty = some n := by
  have htree := hroot ▸ h.root
  obtain ⟨ms', rfl, -, -, relevance, hguard, hunion⟩ :=
    htree.of_arrival h.sound (Trie.merges_ofSequences _) FilterRule.always_bounds nofun harrive
  refine ⟨ms', relevance, rfl, ?_, fun n => ?_⟩
  · simpa [FilterRule.innermost, FilterRule.enclosing?] using hguard
  · rw [h.table]
    exact contains_of_isUnion hunion n

theorem Built.arranged (h : tree.Built mapping true type l) {root : NodeId}
    (hroot : tree.root = some root) : l.Arranged .always root := by
  have htree := hroot ▸ h.root
  exact htree.arranged h.sound (Trie.merges_ofSequences _) FilterRule.always_bounds

/-- Merging the sequences of the triggers that apply to a type loses nothing.  No two branches
begin with the same move.  The ways from the root to a first document part make the moves of
the triggers that lead to one, each behind a filter for exactly the dirty paths of the triggers
with these moves.  Filters within filters ask for less, and there are none from document parts
on. -/
theorem merges_without_loss (hschema : Schema.ofDefinitions defs = .ok schema)
    (hcompile : Mapping.compile schema ds = .ok mapping) (type : TypeName) :
    ∃ tree, build mapping true type = .ok tree ∧
    let l := layout mapping true type
    l.arena = tree.arena ∧
    (∀ fork : Trie, (fork.Within (.ofSequences (sequences mapping type).2) ∨
      ∃ c, fork.Within (Layout.embeddingTrie mapping c)) → (fork.branches.map (·.1)).Nodup) ∧
    (∀ start u node, tree.root = some start ∨ tree.ownPart = some start →
      tree.arena.Reaches start u → tree.arena.get? u = some node → l.Forks node.children) ∧
    (∀ ms, (∃ root guards place, tree.root = some root ∧
        l.Arrives root (.land type :: ms) guards place) ↔
      (∃ t, mapping.Applies type t ∧ t.moves = ms) ∧ mapping.EndsAtPart type ms) ∧
    (∀ root ms guards place, tree.root = some root → l.Arrives root ms guards place →
      ∃ ms' relevance, ms = .land type :: ms' ∧ guards.getLast? = some relevance ∧
        ∀ n, relevance.contains n = true ↔ ∃ t, mapping.Applies type t ∧ t.moves = ms' ∧
          tree.table.ordinal? t.dirty = some n) ∧
    (∀ root u outer nested k inner nested', tree.root = some root →
      tree.arena.Reaches root u → tree.arena.get? u = some (.ifDirty outer nested) →
      tree.arena.Reaches nested k → tree.arena.get? k = some (.ifDirty inner nested') →
      inner.subset outer = true ∧ inner ≠ outer) ∧
    ∀ place u relevance nested, l.IsPart place → tree.arena.Reaches place u →
      tree.arena.get? u ≠ some (.ifDirty relevance nested) := by
  have hm := Schema.coherent_of_accepted hschema
  have hclosed := Mapping.closed_of_compile hm hcompile
  obtain ⟨tree, hbuild, hbuilt⟩ := build_layout hclosed.bounded true type
  refine ⟨tree, hbuild, ?_⟩
  rw [hbuilt.arena]
  refine ⟨rfl, ?_, ?_, hbuilt.arrival_iff, fun _ _ _ _ => hbuilt.innermost_filter, ?_, ?_⟩
  · rintro fork (hwithin | ⟨c, hwithin⟩)
    · exact hwithin.nodup_moves (Trie.merges_ofSequences _)
    · exact hwithin.nodup_moves (Layout.merges_embeddingTrie mapping c)
  · rintro start u node (hroot | hown) hreach hnode
    · exact (hbuilt.arranged hroot).forks hbuilt.sound hreach hnode
    · have hpart : (layout mapping true type).IsPart start := ⟨type, hown ▸ hbuilt.ownPart⟩
      have harranged : (layout mapping true type).Arranged .never start := .part hpart
      exact harranged.forks hbuilt.sound hreach hnode
  · intro root u outer nested k inner nested' hroot hreach hfilter hreach' hfilter'
    exact (hbuilt.arranged hroot).narrower hbuilt.sound hreach hfilter hreach' hfilter'
  · intro place u relevance nested hpart hreach
    exact hpart.no_filter hbuilt.sound hreach

/-- A new spouse is in the document of the old one, a new name is not. -/
theorem merges_without_loss_couple :
    let way : List Move := [.land "Person", .read "spouse", .land "Person"]
    let l := layout Sample.coupleMapping true "Person"
    (∃ root guards place, Sample.coupleTree.root = some root ∧ l.Arrives root way guards place) ∧
      ∀ root guards place, Sample.coupleTree.root = some root → l.Arrives root way guards place →
        ∃ relevance, guards.getLast? = some relevance ∧
          relevance.contains 1 = true ∧ relevance.contains 0 = false := by
  have htriggers : ∀ t ∈ Sample.coupleMapping.triggers,
      t.moves = [.read "spouse", .land "Person"] →
        Sample.coupleTree.table.ordinal? t.dirty = some 1 := by decide +kernel
  have happlies : ∃ t, Sample.coupleMapping.Applies "Person" t ∧
      t.moves = [.read "spouse", .land "Person"] :=
    ⟨.along "Person" "spouse" [Sample.spouseLink], ⟨by decide +kernel, by decide +kernel⟩,
      by decide +kernel⟩
  obtain ⟨tree, hbuild, -, -, -, hways, hguards, -⟩ := merges_without_loss
    (Except.eq_ok_value _) Sample.compile_couple "Person"
  obtain rfl : tree = Sample.coupleTree :=
    Except.ok.inj (hbuild.symm.trans (Except.eq_ok_value _))
  refine ⟨(hways _).mpr ⟨happlies, .inr ⟨nofun, "Person", rfl, "Person", ?_, ?_⟩⟩, ?_⟩
  · decide +kernel
  · decide +kernel
  · intro root guards place hroot harrive
    obtain ⟨ms, relevance, heq, hlast, hcontains⟩ := hguards root _ guards place hroot harrive
    cases heq
    obtain ⟨t, ht, hmoves⟩ := happlies
    refine ⟨relevance, hlast, (hcontains 1).mpr ⟨t, ht, hmoves, htriggers t ht.1 hmoves⟩, ?_⟩
    refine Bool.eq_false_iff.mpr fun hzero => ?_
    obtain ⟨t', ht', hmoves', hordinal⟩ := (hcontains 0).mp hzero
    exact absurd ((htriggers t' ht'.1 hmoves').symm.trans hordinal) nofun

end ChangeTree

end IndexSync
