import IndexSync.Proofs.Tree.Viable
import IndexSync.Proofs.Walk.Nodes
import IndexSync.Proofs.Schema.Inheritance

/-!
# Where laid-out trees lead

A walk through laid-out sequences follows the sequences.

- `Mapping.Attempts` — the moves that a walk makes on its way along sequences, and
  where it makes them.
- `Layout.Branch.comesTo_part`, `Layout.Tree.comesTo_part` — the walk comes to
  the part of every object that a sequence leads to.
- `Layout.Branches.comesTo_move`, `Layout.Tree.comesTo_move` — the walk makes every move
  that it is to make.
- `Layout.traces`, `Layout.Tree.trace` — wherever the walk is, it makes one of these
  moves, or has come through the part of an object that a whole sequence leads to.
-/

namespace IndexSync

variable {schema : Schema}

/-- On the way from `v` along one of the sequences `hit`, the move is made at `u`, as a tree
for the sequences `all` has a node for it. -/
def Mapping.Attempts (mapping : Mapping schema) (s : ObjectStore schema)
    (hit all : List Move → Prop) (v : Value) (move : Move) (u : Value) : Prop :=
  ∃ before, (∃ rest, hit (before ++ move :: rest)) ∧
    (∃ rest, all (before ++ move :: rest) ∧ mapping.Viable (move :: rest)) ∧
    movesLead s before v u

/-- More sequences, with the same types that have a part, make as many moves. -/
theorem Mapping.Attempts.mono {mapping mapping' : Mapping schema} {s : ObjectStore schema}
    {hit hit' all all' : List Move → Prop} {v u : Value} {move : Move}
    (h : mapping.Attempts s hit all v move u) (hparts : mapping.hasPart = mapping'.hasPart)
    (hhit : ∀ ms, hit ms → hit' ms) (hall : ∀ ms, all ms → all' ms) :
    mapping'.Attempts s hit' all' v move u := by
  obtain ⟨before, ⟨rest, hrest⟩, ⟨rest', hrest', hviable⟩, hlead⟩ := h
  rw [viable_congr hparts] at hviable
  exact ⟨before, ⟨rest, hhit _ hrest⟩, ⟨rest', hall _ hrest', hviable⟩, hlead⟩

namespace Walk

variable {w : Walk schema} {mapping : Mapping schema} {rule : FilterRule}
  {relevance bits : OrdinalSet} {S : SequenceSet}

/-- The walk from a place comes to one where `P` holds. -/
def ComesTo (w : Walk schema) (p : Place) (P : Place → Prop) : Prop :=
  ∃ n q, w.Reaches n p q ∧ P q

theorem ComesTo.here {p : Place} {P : Place → Prop} (h : P p) : w.ComesTo p P :=
  ⟨0, p, .refl p, h⟩

theorem ComesTo.head {p q : Place} {P : Place → Prop} (h : w.ComesTo q P) (hlead : w.Leads p q) :
    w.ComesTo p P := by
  obtain ⟨n, r, hreach, hr⟩ := h
  exact ⟨n + 1, r, .head hlead hreach, hr⟩

/-- A finished walk that comes to the mark of an object has found the object's reference. -/
theorem exists_found_of_comesTo {nodes : List NodeId} {object x : ObjectId} {s : State}
    (hrun : w.run nodes object = (.finished, s)) {u : NodeId} (hu : u ∈ nodes)
    (hcomes : w.ComesTo (u, .object object) fun q =>
      w.arena.get? q.1 = some .reindex ∧ q.2.toValue = .ref x) :
    ∃ r ∈ s.findings.entities, w.store.reference x = .ok r := by
  obtain ⟨n, ⟨id, f⟩, hreach, hid, hf⟩ := hcomes
  obtain ⟨followed, hfollow, hfound⟩ := follow_of_finished hrun ⟨u, hu, n, hreach⟩
  obtain ⟨r, hr, hsome⟩ := found_of_reindex hid hf hfollow
  exact ⟨r, hfound r hsome, hr⟩

/-- A node that only passes on what it is applied to. -/
def Transits (w : Walk schema) (id : NodeId) : Prop :=
  (∃ children, w.arena.get? id = some (.union children)) ∨
    ∃ relevance nested, w.arena.get? id = some (.ifDirty relevance nested)

theorem Transits.ne_reindex {id : NodeId} (h : w.Transits id) :
    w.arena.get? id ≠ some .reindex := by
  rcases h with ⟨_, h⟩ | ⟨_, _, h⟩
  · rw [h]
    nofun
  · rw [h]
    nofun

/-! ## What filters let pass -/

/-- A filter lets the walk pass, or there is none. -/
def Clears (w : Walk schema) (rule : FilterRule) (relevance : OrdinalSet) : Prop :=
  rule = .never ∨ w.Admits relevance

@[simp] theorem clears_inside : w.Clears (rule.inside relevance) bits ↔ w.Clears rule bits := by
  cases rule <;> simp [Clears, FilterRule.inside]

/-- A filter for several sequences lets pass what one for a single one does. -/
theorem Clears.of_isUnion {F : OrdinalSet → Prop} (h : w.Clears rule bits)
    (hunion : relevance.IsUnion F) (hbits : F bits) : w.Clears rule relevance :=
  h.imp_right (·.mono (hunion.subset hbits))

/-- What a filter for several sequences lets pass, one for a single one does too. -/
theorem Clears.exists_of_isUnion {F : OrdinalSet → Prop} (h : w.Clears rule relevance)
    (hunion : relevance.IsUnion F) (hsome : ∃ bits, F bits) :
    ∃ bits, F bits ∧ w.Clears rule bits := by
  rcases h with hnever | hadmit
  · obtain ⟨bits, hbits⟩ := hsome
    exact ⟨bits, hbits, .inl hnever⟩
  · unfold Admits blocks at hadmit
    cases hd : w.dirty with
    | none =>
        obtain ⟨bits, hbits⟩ := hsome
        exact ⟨bits, hbits, .inr (by simp [Admits, blocks, hd])⟩
    | some dirty =>
        simp only [hd, Bool.not_eq_false', OrdinalSet.intersects_iff] at hadmit
        obtain ⟨n, hn, hdirty⟩ := hadmit
        obtain ⟨bits, hbits, hmem⟩ := (hunion n).mp hn
        refine ⟨bits, hbits, .inr ?_⟩
        simp only [Admits, blocks, hd, Bool.not_eq_false', OrdinalSet.intersects_iff]
        exact ⟨n, hmem, hdirty⟩

/-- What the filters above have let pass. -/
def Passed (w : Walk schema) : FilterRule → Prop
  | .below enclosing => w.Admits enclosing
  | _ => True

theorem Passed.of_free (h : w.Passed rule) (hnarrow : rule.narrows relevance = false) :
    w.Clears rule relevance := by
  cases rule with
  | never => exact .inl rfl
  | always => cases hnarrow
  | below enclosing => exact .inr (h.mono (by simpa [FilterRule.narrows] using hnarrow))

theorem Clears.passed_inside (h : w.Clears rule relevance) : w.Passed (rule.inside relevance) := by
  cases rule with
  | never => trivial
  | always | below => exact h.resolve_left nofun

/-! ## On the way along sequences -/

/-- The sequences that the filters let pass. -/
def hits (w : Walk schema) (rule : FilterRule) (S : SequenceSet) : List Move → Prop :=
  fun ms => ∃ bits, S ms bits ∧ w.Clears rule bits

/-- A place on the way from the value `v` along the sequences. -/
def Inside (w : Walk schema) (mapping : Mapping schema) (rule : FilterRule) (S : SequenceSet)
    (v : Value) (q : Place) : Prop :=
  w.Transits q.1 ∨ ∃ move,
    mapping.Attempts w.store (w.hits rule S) S.moves v move q.2.toValue ∧ w.MakesMove q.1 move

/-- A place that comes after the part of an object that a whole sequence leads
to. -/
def Beyond (w : Walk schema) (l : Layout) (rule : FilterRule) (S : SequenceSet) (v : Value)
    (n : Nat) (q : Place) : Prop :=
  ∃ ms x c place k, w.hits rule S ms ∧ movesLead w.store ms v (.ref x) ∧
    w.store.runtimeType x = .ok c ∧ l.parts[c]? = some (some place) ∧ k ≤ n ∧
    w.Reaches k (place, .object x) q

theorem Inside.after {move : Move} {u v : Value} {q : Place}
    (h : w.Inside mapping (rule.inside relevance) (S.after move) u q)
    (hmove : move.Leads w.store v u) : w.Inside mapping rule S v q := by
  refine h.imp_right ?_
  rintro ⟨m, ⟨before, ⟨rest, bits, hms, hclear⟩, hviable, hlead⟩, hmake⟩
  exact ⟨m, ⟨move :: before, ⟨rest, bits, hms, clears_inside.mp hclear⟩, hviable, u, hmove, hlead⟩,
    hmake⟩

theorem Beyond.mono {l : Layout} {v : Value} {k n : Nat} {q : Place}
    (h : w.Beyond l rule S v k q) (hle : k ≤ n) : w.Beyond l rule S v n q := by
  obtain ⟨ms, x, c, place, k', hhit, hlead, hx, hplace, hk', hreach⟩ := h
  exact ⟨ms, x, c, place, k', hhit, hlead, hx, hplace, Nat.le_trans hk' hle, hreach⟩

theorem Beyond.after {l : Layout} {move : Move} {u v : Value} {n : Nat} {q : Place}
    (h : w.Beyond l (rule.inside relevance) (S.after move) u n q)
    (hmove : move.Leads w.store v u) : w.Beyond l rule S v n q := by
  obtain ⟨ms, x, c, place, k, ⟨bits, hms, hclear⟩, hlead, hrest⟩ := h
  exact ⟨move :: ms, x, c, place, k, ⟨bits, hms, clears_inside.mp hclear⟩, ⟨u, hmove, hlead⟩, hrest⟩

/-- Along the branches of a trie, the walk is on the way along the sequences or has
come through a part. -/
def Traces (w : Walk schema) (mapping : Mapping schema) (l : Layout) (t : Trie)
    (S : SequenceSet) : Prop :=
  ∀ rule ids, l.Branches schema rule t.branches ids → w.Passed rule → ∀ id ∈ ids, ∀ n f q,
    w.Reaches n (id, f) q →
      w.Inside mapping rule S f.toValue q ∨ w.Beyond l rule S f.toValue n q

end Walk

namespace Layout

variable {w : Walk schema} {l : Layout} (hw : w.arena = l.arena)
include hw

/-! ## The walk comes to whatever sequences lead to -/

section

variable {P : Place → Prop}

theorem Joins.comesTo {ids : List NodeId} {id? : Option NodeId} (h : l.Joins ids id?) {id : NodeId}
    (hid : id ∈ ids) {f : Footing} (hr : w.ComesTo (id, f) P) :
    ∃ u, id? = some u ∧ w.ComesTo (u, f) P := by
  cases h with
  | none => cases hid
  | one =>
      cases List.mem_singleton.mp hid
      exact ⟨id, rfl, hr⟩
  | @union _ u hu =>
      rw [← hw] at hu
      have hlead : w.Leads (u, f) (id, f) := (Walk.leads_union hu).mpr ⟨id, hid, rfl⟩
      exact ⟨u, rfl, hr.head hlead⟩

theorem Filters.comesTo {rule : FilterRule} {relevance : OrdinalSet} {id : NodeId}
    {here : Option NodeId} (h : l.Filters rule relevance (some id) here)
    (hclear : w.Clears rule relevance) {f : Footing} (hr : w.ComesTo (id, f) P) :
    ∃ u, here = some u ∧ w.ComesTo (u, f) P := by
  cases h with
  | free => exact ⟨id, rfl, hr⟩
  | @behind _ u hnarrow hu =>
      rw [← hw] at hu
      rcases hclear with rfl | hclear
      · cases hnarrow
      · have hlead : w.Leads (u, f) (id, f) := (Walk.leads_ifDirty hu).mpr ⟨hclear, rfl⟩
        exact ⟨u, rfl, hr.head hlead⟩

theorem Lands.comesTo {rule : FilterRule} {static : TypeName} {concretes : List TypeName}
    {ended : Option OrdinalSet} {continuation id? : Option NodeId}
    (h : l.Lands rule static concretes ended continuation id?) {c : TypeName}
    (hc : c ∈ concretes) {f : Footing} {x : ObjectId} (hf : f.toValue = .ref x)
    (hx : w.store.runtimeType x = .ok c)
    (henter : ∀ entry, l.Enters rule ended continuation c entry →
      ∃ u, entry = some u ∧ w.ComesTo (u, .object x) P) :
    ∃ u, id? = some u ∧ w.ComesTo (u, f) P := by
  cases h with
  | nowhere hall =>
      obtain ⟨_, hnone, _⟩ := henter _ (hall c hc)
      cases hnone
  | @somewhere u dispatch hu hall =>
      rw [← hw] at hu
      obtain ⟨nested, hnested, hr⟩ := henter _ (hall c hc)
      have hlead : w.Leads (u, f) (nested, .object x) :=
        (Walk.leads_type hu).mpr ⟨x, c, nested, hf, hx, hnested, rfl⟩
      exact ⟨u, rfl, hr.head hlead⟩

/-- From the part of an object of the type, the walk comes to where `P` holds. -/
def PartComesTo (l : Layout) (w : Walk schema) (c : TypeName) (x : ObjectId) (P : Place → Prop) :
    Prop :=
  ∀ part, l.parts[c]? = some part → ∃ place, part = some place ∧ w.ComesTo (place, .object x) P

/-- A landing where sequences have ended leads to the object's own part. -/
theorem Enters.comesTo_own {rule : FilterRule} {relevance : OrdinalSet}
    {continuation entry : Option NodeId} {c : TypeName}
    (h : l.Enters rule (some relevance) continuation c entry) (hclear : w.Clears rule relevance)
    {x : ObjectId} (hpart : l.PartComesTo w c x P) :
    ∃ u, entry = some u ∧ w.ComesTo (u, .object x) P := by
  obtain ⟨own, hown, hjoin⟩ := h
  cases hown with
  | ended hknown hfilter =>
      obtain ⟨place, rfl, hplace⟩ := hpart _ hknown
      obtain ⟨u, rfl, hu⟩ := hfilter.comesTo hw hclear hplace
      exact hjoin.comesTo hw (by simp) hu

/-- A landing leads on to what continues there. -/
theorem Enters.comesTo_continuation {rule : FilterRule} {ended : Option OrdinalSet} {k : NodeId}
    {entry : Option NodeId} {c : TypeName} (h : l.Enters rule ended (some k) c entry)
    {f : Footing} (hr : w.ComesTo (k, f) P) : ∃ u, entry = some u ∧ w.ComesTo (u, f) P := by
  obtain ⟨own, -, hjoin⟩ := h
  exact hjoin.comesTo hw (by simp) hr

variable (hm : schema.Coherent)
include hm

theorem Makes.comesTo {rule : FilterRule} {ended : Option OrdinalSet}
    {k : NodeId} {move : Move} {id? : Option NodeId}
    (h : l.Makes schema rule ended (some k) move id?) {f : Footing} {u : Value}
    (hmove : move.Leads w.store f.toValue u)
    (hr : ∀ g : Footing, g.toValue = u → w.ComesTo (k, g) P) :
    ∃ v, id? = some v ∧ w.ComesTo (v, f) P := by
  cases move with
  | read name =>
      cases h with
      | @some _ v hv =>
          rw [← hw] at hv
          have hlead : w.Leads (v, f) (k, .value u) :=
            (Walk.leads_property hv).mpr ⟨u, hmove, rfl⟩
          exact ⟨v, rfl, (hr _ rfl).head hlead⟩
  | extract e =>
      cases h with
      | @some _ v hv =>
          rw [← hw] at hv
          have hlead : w.Leads (v, f) (k, .value u) :=
            (Walk.leads_extract hv).mpr ⟨u, hmove, rfl⟩
          exact ⟨v, rfl, (hr _ rfl).head hlead⟩
  | cast target =>
      obtain ⟨o, ho, his, rfl⟩ := hmove
      cases h with
      | @some _ v hv =>
          rw [← hw] at hv
          have hlead : w.Leads (v, f) (k, .object o) :=
            (Walk.leads_cast hv).mpr ⟨o, ho, his, rfl⟩
          exact ⟨v, rfl, (hr (.object o) ho.symm).head hlead⟩
  | land static =>
      obtain ⟨o, ho, ⟨c, hc, hfits⟩, rfl⟩ := hmove
      have hmem : c ∈ schema.concretesUnder static :=
        hm.mem_concretesUnder_iff.mpr ⟨w.store.isConcrete_of_runtimeType hc, hfits⟩
      refine Lands.comesTo hw h hmem ho hc fun entry henter => ?_
      exact henter.comesTo_continuation hw (hr (.object o) ho.symm)

/-- From a branch the walk comes to wherever it does from what follows the move. -/
theorem Branch.comesTo_of_branches {rule : FilterRule} {move : Move} {t : Trie}
    {id? : Option NodeId} (h : l.Branch schema rule move t id?) {f : Footing} {u : Value}
    (hmove : move.Leads w.store f.toValue u)
    (hrest : ∀ ids, l.Branches schema rule t.branches ids → ∀ g : Footing, g.toValue = u →
      ∃ id ∈ ids, w.ComesTo (id, g) P) :
    ∃ v, id? = some v ∧ w.ComesTo (v, f) P := by
  cases t with
  | fork ended branches =>
      rw [Branch] at h
      obtain ⟨ids, continuation, hids, hjoin, hmake⟩ := h
      have hcontinue : ∀ g : Footing, g.toValue = u →
          ∃ k, continuation = some k ∧ w.ComesTo (k, g) P := by
        intro g hg
        obtain ⟨id, hid, hr⟩ := hrest ids hids g hg
        exact hjoin.comesTo hw hid hr
      -- the continuation is one node, wherever the move leads to
      obtain ⟨k, rfl, -⟩ := hcontinue (.value u) rfl
      refine hmake.comesTo hw hm hmove fun g hg => ?_
      obtain ⟨_, heq, hr⟩ := hcontinue g hg
      cases heq
      exact hr

omit hm in
/-- Among the branches there is a node for whatever one of them comes to. -/
theorem Branches.comesTo {rule : FilterRule} {branches : List (Move × OrdinalSet × Trie)}
    {ids : List NodeId} (h : l.Branches schema rule branches ids) {move : Move}
    {relevance : OrdinalSet} {next : Trie} (hmem : (move, relevance, next) ∈ branches)
    (hclear : w.Clears rule relevance) {f : Footing}
    (hbranch : ∀ id?, l.Branch schema (rule.inside relevance) move next id? →
      ∃ u, id? = some u ∧ w.ComesTo (u, f) P) :
    ∃ id ∈ ids, w.ComesTo (id, f) P := by
  obtain ⟨id?, here, hlaid, hfilter, hsub⟩ := h.exists_node hmem
  obtain ⟨u, rfl, hu⟩ := hbranch id? hlaid
  obtain ⟨v, rfl, hv⟩ := hfilter.comesTo hw hclear hu
  exact ⟨v, hsub (by simp), hv⟩

variable {x : ObjectId} {c : TypeName} {S : SequenceSet} {ms : List Move} {rule : FilterRule}

/-- From a branch the walk comes to wherever it does from the part of an object that one
of its sequences leads to. -/
theorem Branch.comesTo_part (hx : w.store.runtimeType x = .ok c) (hpart : l.PartComesTo w c x P)
    {move : Move} {t : Trie} {id? : Option NodeId} {f : Footing}
    (h : l.Branch schema rule move t id?) (hmerge : t.Merges S) (hhit : w.hits rule S ms)
    (hlead : movesLead w.store (move :: ms) f.toValue (.ref x))
    (hland : ∃ before static, move :: ms = before ++ [.land static]) :
    ∃ u, id? = some u ∧ w.ComesTo (u, f) P := by
  -- on the moves, as the trie branches along them; the last one is the landing
  induction ms generalizing rule move t id? f S with
  | nil =>
      obtain ⟨before, static, hsplit⟩ := hland
      obtain rfl : move = .land static := by
        cases before with
        | nil => exact List.head_eq_of_cons_eq hsplit
        | cons => simp at hsplit
      obtain ⟨v, ⟨o, ho, ⟨c', hc', hfits⟩, rfl⟩, hv⟩ := hlead
      cases ho.symm.trans hv
      cases hc'.symm.trans hx
      obtain ⟨bits, hbits, hclear⟩ := hhit
      obtain ⟨relevance, hended, hunion⟩ := hmerge.exists_ended hbits
      cases t with
      | fork ended branches =>
          rw [Branch] at h
          obtain ⟨ids, continuation, -, -, hmake⟩ := h
          cases hended
          have hmem : c ∈ schema.concretesUnder static :=
            hm.mem_concretesUnder_iff.mpr ⟨w.store.isConcrete_of_runtimeType hx, hfits⟩
          refine Lands.comesTo hw hmake hmem ho hx fun entry henter => ?_
          exact henter.comesTo_own hw (hclear.of_isUnion hunion hbits) hpart
  | cons next ms ih =>
      obtain ⟨u, hmove, hrest⟩ := hlead
      obtain ⟨bits, hms, hclear⟩ := hhit
      obtain ⟨relevance, t', hmem, hunion, hnext⟩ := hmerge.exists_branch hms
      have hland' : ∃ before static, next :: ms = before ++ [.land static] := by
        obtain ⟨before, static, hsplit⟩ := hland
        cases before with
        | nil => simp at hsplit
        | cons m before => exact ⟨before, static, List.tail_eq_of_cons_eq hsplit⟩
      refine h.comesTo_of_branches hw hm hmove ?_
      rintro ids hids g rfl
      refine hids.comesTo hw hmem (hclear.of_isUnion hunion ⟨_, hms⟩) fun id? hbranch => ?_
      exact ih hbranch hnext ⟨bits, hms, Walk.clears_inside.mpr hclear⟩ hrest hland'

/-- The same from the root of a tree. -/
theorem Tree.comesTo_part (hx : w.store.runtimeType x = .ok c) (hpart : l.PartComesTo w c x P)
    {static : TypeName} {concretes : List TypeName} {trie : Trie} {root : Option NodeId}
    (h : l.Tree schema rule static concretes trie root) (hmerge : trie.Merges S)
    (hhit : w.hits rule S ms) {o : ObjectId} {type : TypeName}
    (ho : w.store.runtimeType o = .ok type) (hconcrete : type ∈ concretes)
    (hlead : movesLead w.store ms (.ref o) (.ref x))
    (hland : ms = [] ∨ ∃ before static, ms = before ++ [.land static]) :
    ∃ u, root = some u ∧ w.ComesTo (u, .object o) P := by
  obtain ⟨ids, continuation, hids, hjoin, hlaid⟩ := h
  obtain ⟨bits, hms, hclear⟩ := hhit
  cases ms with
  | nil =>
      cases hlead
      cases ho.symm.trans hx
      obtain ⟨relevance, hended, hunion⟩ := hmerge.exists_ended hms
      rw [hended] at hlaid
      refine hlaid.comesTo hw hconcrete rfl hx fun entry henter => ?_
      exact henter.comesTo_own hw (hclear.of_isUnion hunion hms) hpart
  | cons move ms =>
      obtain ⟨relevance, next, hmem, hunion, hnext⟩ := hmerge.exists_branch hms
      obtain ⟨id, hid, hr⟩ : ∃ id ∈ ids, w.ComesTo (id, .object o) P := by
        refine hids.comesTo hw hmem (hclear.of_isUnion hunion ⟨_, hms⟩) fun id? hbranch => ?_
        exact hbranch.comesTo_part hw hm hx hpart hnext
          ⟨bits, hms, Walk.clears_inside.mpr hclear⟩ hlead (hland.resolve_left nofun)
      obtain ⟨k, rfl, hk⟩ := hjoin.comesTo hw hid hr
      refine hlaid.comesTo hw hconcrete rfl ho fun entry henter => ?_
      exact henter.comesTo_continuation hw hk

end

/-! ## The walk makes every move that it is to make -/

section

variable {mapping : Mapping schema} (hm : schema.Coherent) {S : SequenceSet} {rule : FilterRule}
  {move : Move} {v : Value}
include hm

/-- A node that makes a move. -/
theorem Makes.makesMove {ended : Option OrdinalSet} {continuation : Option NodeId} {id : NodeId}
    (h : l.Makes schema rule ended continuation move (some id)) :
    w.MakesMove id move := by
  cases move with
  | read | extract | cast =>
      cases h with
      | some hid =>
          rw [← hw] at hid
          exact ⟨_, hid⟩
  | land =>
      cases h with
      | somewhere hid _ hkeys =>
          rw [← hw] at hid
          exact ⟨_, hid, fun c nested hc => (hm.mem_concretesUnder_iff.mp (hkeys c nested hc)).2⟩

theorem Branch.makesMove {t : Trie} {id : NodeId} (h : l.Branch schema rule move t (some id)) :
    w.MakesMove id move := by
  cases t
  rw [Branch] at h
  obtain ⟨_, _, _, _, hmake⟩ := h
  exact hmake.makesMove hw hm

variable (hsound : l.Sound mapping [])
include hsound

/-- Among the branches there is one from which the walk comes to make the move. -/
theorem Branches.comesTo_move {t : Trie} {ids : List NodeId} {f : Footing}
    (h : l.Branches schema rule t.branches ids) (hmerge : t.Merges S)
    (hattempt : mapping.Attempts w.store (w.hits rule S) S.moves f.toValue move v) :
    ∃ id ∈ ids, w.ComesTo (id, f) fun q => q.2.toValue = v ∧ w.MakesMove q.1 move := by
  obtain ⟨before, ⟨rest, bits, hms, hclear⟩, ⟨rest', ⟨bits', hms'⟩, hviable⟩, hlead⟩ := hattempt
  -- on the moves before this one, as the trie branches along them
  induction before generalizing t ids f rule S with
  | nil =>
      cases hlead
      obtain ⟨relevance, next, hmem, hunion, hnext⟩ := hmerge.exists_branch hms
      refine h.comesTo hw hmem (hclear.of_isUnion hunion ⟨_, hms⟩) fun id? hbranch => ?_
      obtain ⟨id, rfl⟩ := hbranch.exists_node hsound hnext hms' hviable
      exact ⟨id, rfl, .here ⟨rfl, hbranch.makesMove hw hm⟩⟩
  | cons first before ih =>
      obtain ⟨u, hmove, hrest⟩ := hlead
      obtain ⟨relevance, next, hmem, hunion, hnext⟩ := hmerge.exists_branch hms
      refine h.comesTo hw hmem (hclear.of_isUnion hunion ⟨_, hms⟩) fun id? hbranch => ?_
      refine hbranch.comesTo_of_branches hw hm hmove ?_
      rintro ids' hids g rfl
      exact ih hids hnext hms (Walk.clears_inside.mpr hclear) hrest hms'

/-- The same from the root of a tree. -/
theorem Tree.comesTo_move {static : TypeName} {concretes : List TypeName} {trie : Trie}
    {root : Option NodeId} (h : l.Tree schema rule static concretes trie root)
    (hmerge : trie.Merges S) {o : ObjectId} {type : TypeName}
    (ho : w.store.runtimeType o = .ok type) (hconcrete : type ∈ concretes)
    (hattempt : mapping.Attempts w.store (w.hits rule S) S.moves (.ref o) move v) :
    ∃ u, root = some u ∧
      w.ComesTo (u, .object o) fun q => q.2.toValue = v ∧ w.MakesMove q.1 move := by
  obtain ⟨ids, continuation, hids, hjoin, hlaid⟩ := h
  obtain ⟨id, hid, hr⟩ := hids.comesTo_move hw hm hsound (f := .object o) hmerge hattempt
  obtain ⟨k, rfl, hk⟩ := hjoin.comesTo hw hid hr
  refine hlaid.comesTo hw hconcrete rfl ho fun entry henter => ?_
  exact henter.comesTo_continuation hw hk

end

/-! ## Whatever is reached is on the way along sequences -/

theorem Joins.trace {ids : List NodeId} {id : NodeId} (h : l.Joins ids (some id)) {n : Nat}
    {f : Footing} {q : Place} (hreach : w.Reaches n (id, f) q) :
    w.Transits q.1 ∨ ∃ i ∈ ids, ∃ k ≤ n, w.Reaches k (i, f) q := by
  cases h with
  | one => exact .inr ⟨id, List.mem_singleton_self id, n, Nat.le_refl n, hreach⟩
  | union hid =>
      rw [← hw] at hid
      cases hreach with
      | refl => exact .inl (.inl ⟨_, hid⟩)
      | @head k _ _ _ hlead hrest =>
          obtain ⟨i, hi, rfl⟩ := (Walk.leads_union hid).mp hlead
          exact .inr ⟨i, hi, k, Nat.le_succ k, hrest⟩

variable {mapping : Mapping schema} {S : SequenceSet} {rule : FilterRule}

theorem Filters.trace {relevance : OrdinalSet} {id? : Option NodeId}
    {here : NodeId} (h : l.Filters rule relevance id? (some here))
    (hpass : w.Passed rule) {n : Nat} {f : Footing} {q : Place}
    (hreach : w.Reaches n (here, f) q) :
    w.Transits q.1 ∨ ∃ id, id? = some id ∧ w.Clears rule relevance ∧
      ∃ k ≤ n, w.Reaches k (id, f) q := by
  cases h with
  | free hnarrow => exact .inr ⟨here, rfl, hpass.of_free hnarrow, n, Nat.le_refl n, hreach⟩
  | @behind id _ _ hhere =>
      rw [← hw] at hhere
      cases hreach with
      | refl => exact .inl (.inr ⟨_, _, hhere⟩)
      | @head k _ _ _ hlead hrest =>
          obtain ⟨hclear, rfl⟩ := (Walk.leads_ifDirty hhere).mp hlead
          exact .inr ⟨id, rfl, .inr hclear, k, Nat.le_succ k, hrest⟩

theorem Branches.trace_continuation {t : Trie} (ih : w.Traces mapping l t S)
    {ids : List NodeId} (h : l.Branches schema rule t.branches ids) (hpass : w.Passed rule)
    {k : NodeId} (hjoin : l.Joins ids (some k)) {n : Nat} {f : Footing} {q : Place}
    (hreach : w.Reaches n (k, f) q) :
    w.Inside mapping rule S f.toValue q ∨ w.Beyond l rule S f.toValue n q := by
  rcases hjoin.trace hw hreach with htransit | ⟨id, hid, n', hle, hreach'⟩
  · exact .inl (.inl htransit)
  · exact (ih rule ids h hpass id hid n' f q hreach').imp_right (·.mono hle)

/-- What is entered at a landing is the object's own part or what continues. -/
theorem Enters.trace {ended : Option OrdinalSet}
    {continuation : Option NodeId} {c : TypeName} {entry : NodeId}
    (h : l.Enters rule ended continuation c (some entry)) (hpass : w.Passed rule) {n : Nat}
    {f : Footing} {q : Place} (hreach : w.Reaches n (entry, f) q) :
    w.Transits q.1 ∨
      (∃ relevance place k, ended = some relevance ∧ l.parts[c]? = some (some place) ∧
        w.Clears rule relevance ∧ k ≤ n ∧ w.Reaches k (place, f) q) ∨
      ∃ id k, continuation = some id ∧ k ≤ n ∧ w.Reaches k (id, f) q := by
  obtain ⟨own, hown, hjoin⟩ := h
  rcases hjoin.trace hw hreach with htransit | ⟨id, hid, k, hle, hreach'⟩
  · exact .inl htransit
  · rcases List.mem_append.mp hid with hid | hid
    · cases Option.mem_toList.mp hid
      cases hown with
      | ended hpart hfilter =>
          rcases hfilter.trace hw hpass hreach' with
            htransit | ⟨place, rfl, hclear, k', hle', hreach''⟩
          · exact .inl htransit
          · exact .inr (.inl ⟨_, place, k', rfl, hpart, hclear, Nat.le_trans hle' hle, hreach''⟩)
    · exact .inr (.inr ⟨id, k, Option.mem_toList.mp hid, hle, hreach'⟩)

/-- Any node but a landing makes its move towards the continuation. -/
theorem Makes.onward {ended : Option OrdinalSet}
    {continuation : Option NodeId} {move : Move} {id : NodeId}
    (h : l.Makes schema rule ended continuation move (some id))
    (hmove : ∀ static, move ≠ .land static) {f : Footing} {q : Place}
    (hlead : w.Leads (id, f) q) :
    continuation = some q.1 ∧ move.Leads w.store f.toValue q.2.toValue := by
  cases move with
  | read name =>
      cases h with
      | some hid =>
          rw [← hw] at hid
          obtain ⟨u, hu, rfl⟩ := (Walk.leads_property hid).mp hlead
          exact ⟨rfl, hu⟩
  | extract e =>
      cases h with
      | some hid =>
          rw [← hw] at hid
          obtain ⟨u, hu, rfl⟩ := (Walk.leads_extract hid).mp hlead
          exact ⟨rfl, hu⟩
  | cast target =>
      cases h with
      | some hid =>
          rw [← hw] at hid
          obtain ⟨o, ho, his, rfl⟩ := (Walk.leads_cast hid).mp hlead
          exact ⟨rfl, o, ho, his, ho.symm⟩
  | land static => exact absurd rfl (hmove static)

/-- Past a landing, the walk is in the object's own part, where sequences have
ended, or goes on along the others. -/
theorem Lands.trace {t : Trie} (hmerge : t.Merges S) (ih : w.Traces mapping l t S)
    {static : TypeName} {concretes : List TypeName} {ids : List NodeId}
    {continuation : Option NodeId} {id : NodeId}
    (h : l.Lands rule static concretes t.ended continuation (some id))
    (hids : l.Branches schema rule t.branches ids) (hjoin : l.Joins ids continuation)
    (hpass : w.Passed rule) {n : Nat} {f : Footing} {q : Place}
    (hreach : w.Reaches n (id, f) q) :
    q = (id, f) ∨ ∃ o c, f.toValue = .ref o ∧ w.store.runtimeType o = .ok c ∧ c ∈ concretes ∧
      (w.Inside mapping rule S (.ref o) q ∨ w.Beyond l rule S (.ref o) n q) := by
  cases h with
  | somewhere hid hall hkeys =>
      rw [← hw] at hid
      cases hreach with
      | refl => exact .inl rfl
      | @head k _ _ _ hlead hrest =>
          obtain ⟨o, c, entry, ho, hc, hentry, rfl⟩ := (Walk.leads_type hid).mp hlead
          have hkey := hkeys c entry hentry
          have henter := hall c hkey
          rw [hentry] at henter
          refine .inr ⟨o, c, ho, hc, hkey, ?_⟩
          rcases henter.trace hw hpass hrest with htransit |
            ⟨relevance, place, k', hended, hplace, hclear, hle, hrest'⟩ |
            ⟨id', k', rfl, hle, hrest'⟩
          · exact .inl (.inl htransit)
          · obtain ⟨hsome, hunion⟩ := hmerge.of_ended hended
            obtain ⟨bits, hbits, hclear'⟩ := hclear.exists_of_isUnion hunion hsome
            exact .inr ⟨[], o, c, place, k', ⟨bits, hbits, hclear'⟩, rfl, hc, hplace,
              Nat.le_succ_of_le hle, hrest'⟩
          · have htrace := Branches.trace_continuation hw ih hids hpass hjoin hrest'
            exact htrace.imp_right (·.mono (Nat.le_succ_of_le hle))

variable (hm : schema.Coherent) (hsound : l.Sound mapping [])
include hm hsound

theorem Branch.trace {next : Trie} {move : Move} {relevance : OrdinalSet} {id : NodeId}
    (h : l.Branch schema (rule.inside relevance) move next (some id))
    (hmerge : next.Merges (S.after move)) (ih : w.Traces mapping l next (S.after move))
    (hhit : ∃ ms bits, S (move :: ms) bits ∧ w.Clears rule bits) (hclear : w.Clears rule relevance)
    {n : Nat} {f : Footing} {q : Place} (hreach : w.Reaches n (id, f) q) :
    w.Inside mapping rule S f.toValue q ∨ w.Beyond l rule S f.toValue n q := by
  have hpass := hclear.passed_inside
  -- what is so after the move is so along the branch
  have hafter : ∀ {u k}, move.Leads w.store f.toValue u → k ≤ n →
      w.Inside mapping (rule.inside relevance) (S.after move) u q ∨
        w.Beyond l (rule.inside relevance) (S.after move) u k q →
      w.Inside mapping rule S f.toValue q ∨ w.Beyond l rule S f.toValue n q := by
    intro u k hmove hle htrace
    rcases htrace with hinside | hbeyond
    · exact .inl (hinside.after hmove)
    · exact .inr ((hbeyond.mono hle).after hmove)
  have hat : w.Inside mapping rule S f.toValue (id, f) := by
    obtain ⟨ms, bits, hms, hviable⟩ := h.exists_viable hsound hmerge
    exact .inr ⟨move, ⟨[], hhit, ⟨ms, ⟨bits, hms⟩, hviable⟩, rfl⟩, h.makesMove hw hm⟩
  cases next with
  | fork ended branches =>
      rw [Branch] at h
      obtain ⟨ids, continuation, hids, hjoin, hmade⟩ := h
      by_cases hland : ∃ static, move = .land static
      · obtain ⟨static, rfl⟩ := hland
        rcases Lands.trace hw hmerge ih hmade hids hjoin hpass hreach with
          rfl | ⟨o, c, ho, hc, hkey, htrace⟩
        · exact .inl hat
        · have hmove : (Move.land static).Leads w.store f.toValue (.ref o) :=
            ⟨o, ho, ⟨c, hc, (hm.mem_concretesUnder_iff.mp hkey).2⟩, ho.symm⟩
          exact hafter hmove (Nat.le_refl n) htrace
      · cases hreach with
        | refl => exact .inl hat
        | @head k _ r _ hlead hrest =>
            obtain ⟨rfl, hmove⟩ :=
              hmade.onward hw (fun static heq => hland ⟨static, heq⟩) hlead
            have htrace := Branches.trace_continuation hw ih hids hpass hjoin hrest
            exact hafter hmove (Nat.le_succ k) htrace

/-- Wherever a walk along merged sequences is, it is on the way along one of them,
or has come through the part of an object that a whole one leads to. -/
theorem traces {t : Trie} (hmerge : t.Merges S) : w.Traces mapping l t S := by
  -- on the trie; what is reached below one branch is on the way along it
  induction hmerge with
  | @fork S ended branches hends hended hnodup hmoves hunion hnext ih =>
      intro rule ids h hpass id hid n f q hreach
      obtain ⟨move, relevance, next, id?, hmem, hbranch, hfilter⟩ := h.of_mem hid
      rcases hfilter.trace hw hpass hreach with htransit | ⟨u, rfl, hclear, k, hle, hreach'⟩
      · exact .inl (.inl htransit)
      · have hsome : ∃ bits ms, S (move :: ms) bits := by
          obtain ⟨ms, bits, hms⟩ := (hmoves move).mp (List.mem_map.mpr ⟨_, hmem, rfl⟩)
          exact ⟨bits, ms, hms⟩
        obtain ⟨bits, ⟨ms, hms⟩, hclear'⟩ :=
          hclear.exists_of_isUnion (hunion _ _ _ hmem) hsome
        have htrace := hbranch.trace hw hm hsound (hnext _ _ _ hmem) (ih _ _ _ hmem)
          ⟨ms, bits, hms, hclear'⟩ hclear hreach'
        exact htrace.imp_right (·.mono hle)

/-- The same from the root of a tree. -/
theorem Tree.trace {static : TypeName} {concretes : List TypeName} {trie : Trie} {root : NodeId}
    (h : l.Tree schema rule static concretes trie (some root)) (hmerge : trie.Merges S)
    (hfits : ∀ c ∈ concretes, schema.fits c static = true) (hpass : w.Passed rule) {n : Nat}
    {f : Footing} {q : Place} (hreach : w.Reaches n (root, f) q) :
    (q = (root, f) ∧ w.MakesMove root (.land static)) ∨
      w.Inside mapping rule S f.toValue q ∨ w.Beyond l rule S f.toValue n q := by
  obtain ⟨ids, continuation, hids, hjoin, hland⟩ := h
  have hroot : w.MakesMove root (.land static) := by
    cases hland with
    | somewhere hroot _ hkeys =>
        rw [← hw] at hroot
        exact ⟨_, hroot, fun c nested hc => hfits c (hkeys c nested hc)⟩
  rcases hland.trace hw hmerge (traces hw hm hsound hmerge) hids hjoin hpass hreach with
    rfl | ⟨o, c, ho, -, -, htrace⟩
  · exact .inl ⟨rfl, hroot⟩
  · rw [ho]
    exact .inr htrace

end Layout

end IndexSync
