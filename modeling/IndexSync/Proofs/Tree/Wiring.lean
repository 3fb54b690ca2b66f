import Mathlib.Data.List.Chain
import IndexSync.Proofs.Tree.Laid

/-!
# Which nodes go on with objects

An extractor takes apart what has been read just before, so nothing that goes on with an
object leads to one.

- `Move.Precedes`, `orderly_chainMoves` — which move may come before which.
- `Trie.Follows` — a trie keeps to that after a move.
- `Layout.Firm` — no filter or union leads from a node to an extractor.
- `Layout.Wires`, `Layout.Wired` — nodes that meet an object go on with firm ones, and
  dispatch on the types that they may.
-/

namespace IndexSync

/-! ## Moves -/

namespace Move

/-- The move comes to a value, which need not be an object. -/
def reads : Move → Bool
  | read _ | extract _ => true
  | cast _ | land _ => false

def extracts : Move → Bool
  | extract _ => true
  | read _ | cast _ | land _ => false

/-- Only what has been read is taken apart. -/
def Precedes (before move : Move) : Prop :=
  move.extracts = true → before.reads = true

/-- The moves can be made one after another, from an object on. -/
def Orderly (ms : List Move) : Prop :=
  ms.IsChain Precedes ∧ ∀ move ∈ ms.head?, move.extracts = false

variable {ms ms' : List Move}

theorem Orderly.append (h : Orderly ms) (h' : Orderly ms') : Orderly (ms ++ ms') := by
  refine ⟨List.isChain_append.mpr ⟨h.1, h'.1, ?_⟩, ?_⟩
  · intro _ _ move hmove hextract
    exact absurd (hextract.symm.trans (h'.2 move hmove)) nofun
  · cases ms with
    | nil => exact h'.2
    | cons => exact h.2

theorem Orderly.flatMap {α : Type} {f : α → List Move} {as : List α}
    (h : ∀ a ∈ as, Orderly (f a)) : Orderly (as.flatMap f) := by
  induction as with
  | nil => exact ⟨.nil, nofun⟩
  | cons a as ih =>
      obtain ⟨hfirst, hrest⟩ := List.forall_mem_cons.mp h
      exact hfirst.append (ih hrest)

theorem orderly_singleton {move : Move} (h : move.extracts = false) : Orderly [move] :=
  ⟨.singleton move, fun _ hmove => Option.some.inj hmove ▸ h⟩

theorem orderly_casts (cast? : Option TypeName) : Orderly (cast?.toList.map .cast) := by
  cases cast? with
  | none => exact ⟨.nil, nofun⟩
  | some target => exact orderly_singleton rfl

/-- After an object has been met, orderly moves can be made. -/
theorem Orderly.after_land (h : Orderly ms) (type : TypeName) :
    (land type :: ms).IsChain Precedes := by
  refine List.isChain_cons.mpr ⟨fun move hmove hextract => ?_, h.1⟩
  exact absurd (hextract.symm.trans (h.2 move hmove)) nofun

theorem isChain_extracts {before : Move} (h : before.reads = true) (es : List Extractor) :
    (before :: es.map extract).IsChain Precedes := by
  induction es generalizing before with
  | nil => exact .singleton before
  | cons e es ih => exact .cons_cons (fun _ => h) (ih rfl)

end Move

theorem TypedStep.orderly_moves (s : TypedStep) : Move.Orderly s.moves := by
  have hread : Move.Orderly (.read s.property :: s.extractors.map .extract) :=
    ⟨Move.isChain_extracts rfl _, fun _ hmove => Option.some.inj hmove ▸ rfl⟩
  exact hread.append (Move.orderly_casts s.cast)

theorem Backlink.orderly_moves (b : Backlink) : Move.Orderly b.moves := by
  have hsteps : Move.Orderly (b.steps.flatMap (·.moves)) :=
    .flatMap fun s _ => s.orderly_moves
  have hland : Move.Orderly [.land b.land] := Move.orderly_singleton rfl
  exact (((Move.orderly_casts b.startCast).append hsteps).append
    (Move.orderly_casts b.endCast)).append hland

theorem orderly_chainMoves (chain : List Backlink) : Move.Orderly (chainMoves chain) :=
  .flatMap fun b _ => b.orderly_moves

/-! ## Tries -/

namespace Trie

/-- After the move, the sequences of the trie can go on. -/
inductive Follows : Move → Trie → Prop
  | fork {before : Move} {ended : Option OrdinalSet} {branches : List (Move × OrdinalSet × Trie)} :
      (∀ move relevance next, (move, relevance, next) ∈ branches → before.Precedes move) →
      (∀ move relevance next, (move, relevance, next) ∈ branches → Follows move next) →
      Follows before (.fork ended branches)

theorem Follows.next {before move : Move} {relevance : OrdinalSet} {t next : Trie}
    (h : t.Follows before) (hmem : (move, relevance, next) ∈ t.branches) : next.Follows move := by
  cases h with
  | fork _ hnext => exact hnext move relevance next hmem

theorem Merges.follows {t : Trie} {S : SequenceSet} (h : t.Merges S) {before : Move}
    (hS : ∀ ms bits, S ms bits → (before :: ms).IsChain Move.Precedes) : t.Follows before := by
  induction h generalizing before with
  | fork _ _ _ hmoves _ _ ih =>
      refine .fork (fun move relevance next hmem => ?_) fun move relevance next hmem => ?_
      · obtain ⟨ms, bits, hms⟩ := (hmoves move).mp (List.mem_map_of_mem hmem)
        exact (List.isChain_cons_cons.mp (hS _ _ hms)).1
      · refine ih move relevance next hmem fun ms bits hms => ?_
        exact (List.isChain_cons_cons.mp (hS _ _ hms)).2

/-- Tries of orderly sequences follow an object. -/
theorem follows_ofSequences {sequences : List (List Move × OrdinalSet)}
    (h : ∀ ms bits, (ms, bits) ∈ sequences → Move.Orderly ms) (type : TypeName) :
    (ofSequences sequences).Follows (.land type) :=
  (merges_ofSequences sequences).follows fun ms bits hms => (h ms bits hms).after_land type

end Trie

theorem ChangeTree.follows_sequences {schema : Schema} (mapping : Mapping schema)
    (type static : TypeName) :
    (Trie.ofSequences (sequences mapping type).2).Follows (.land static) := by
  refine Trie.follows_ofSequences (fun ms bits hms => ?_) static
  obtain ⟨t, -, -, rfl, -⟩ := mem_sequences hms
  exact orderly_chainMoves t.chain

theorem Layout.follows_embeddingTrie {schema : Schema} (mapping : Mapping schema)
    (c static : TypeName) : (embeddingTrie mapping c).Follows (.land static) := by
  refine Trie.follows_ofSequences (fun ms bits hms => ?_) static
  obtain ⟨_, hmoves, heq⟩ := List.mem_map.mp hms
  obtain ⟨e, -, rfl⟩ := List.mem_map.mp hmoves
  cases heq
  exact orderly_chainMoves e.chain

/-! ## Nodes -/

namespace Layout

/-- Whatever follows the node without a move is no extractor. -/
inductive Firm (l : Layout) : NodeId → Prop
  | part {id : NodeId} : l.IsPart id → Firm l id
  | onward {id : NodeId} {node : Node} : l.arena.get? id = some node → node ≠ .pending →
      (∀ move, node.move? = some move → move.extracts = false) →
      (node.move? = none → ∀ next ∈ node.children, Firm l next) → Firm l id

/-- What keeps a node wired: where an object is met, no extractor comes next, and a
dispatch has the keys that it may have. -/
structure Wires (l : Layout) (keys : TypeName → TypeName → Prop) (node : Node) : Prop where
  firm : ∀ move, node.move? = some move → move.reads = false → ∀ next ∈ node.children, l.Firm next
  key : ∀ static dispatch, node = .type static dispatch → ∀ (c : TypeName) (id : NodeId),
    dispatch[c]? = some id → keys static c

def Wired (l : Layout) (keys : TypeName → TypeName → Prop) : Prop :=
  ∀ id node, l.arena.get? id = some node → l.Wires keys node

variable {l l' : Layout} {keys : TypeName → TypeName → Prop} {m : Schema} {rule : FilterRule}
  {relevance : OrdinalSet} {ended : Option OrdinalSet} {continuation : Option NodeId}
  {ids : List NodeId} {id u : NodeId}

theorem Extends.isPart (h : l.Extends l') (hpart : l.IsPart id) : l'.IsPart id := by
  obtain ⟨c, hc⟩ := hpart
  exact ⟨c, h.part hc⟩

theorem Firm.extend (hfirm : l.Firm id) (h : l.Extends l') : l'.Firm id := by
  induction hfirm with
  | part hpart => exact .part (h.isPart hpart)
  | onward hnode hfilled hmove _ ih => exact .onward (h.node hnode hfilled) hfilled hmove ih

theorem Wires.extend {node : Node} (hwire : l.Wires keys node) (h : l.Extends l') :
    l'.Wires keys node where
  firm move hmove hread next hnext := (hwire.firm move hmove hread next hnext).extend h
  key := hwire.key

/-- A node that makes no move has nothing to keep. -/
theorem wires_of_move?_eq_none {node : Node} (h : node.move? = none) : l.Wires keys node where
  firm move hmove := absurd (h.symm.trans hmove) nofun
  key static dispatch heq := by
    subst heq
    cases h

theorem firm_of_move? {node : Node} {move : Move} (hnode : l.arena.get? id = some node)
    (hmove : node.move? = some move) (hextract : move.extracts = false) : l.Firm id := by
  refine .onward hnode ?_ ?_ fun hnone => absurd (hnone.symm.trans hmove) nofun
  · rintro rfl
    cases hmove
  · intro move' hmove'
    cases hmove'.symm.trans hmove
    exact hextract

theorem Filters.firm (h : l.Filters rule relevance (some id) (some u)) (hid : l.Firm id) :
    l.Firm u := by
  cases h with
  | free => exact hid
  | behind _ hu => exact .onward hu nofun nofun fun _ => List.forall_mem_singleton.mpr hid

theorem Joins.firm (h : l.Joins ids (some u)) (hids : ∀ id ∈ ids, l.Firm id) : l.Firm u := by
  cases h with
  | one => exact hids u (List.mem_singleton_self u)
  | union hu => exact .onward hu nofun nofun fun _ => hids

/-- Branches that may follow an object are firm. -/
theorem Branches.firm {branches : List (Move × OrdinalSet × Trie)}
    (h : l.Branches m rule branches ids) {before : Move} (hread : before.reads = false)
    (hmoves : ∀ move relevance next, (move, relevance, next) ∈ branches → before.Precedes move) :
    ∀ id ∈ ids, l.Firm id := by
  intro id hid
  obtain ⟨move, relevance, next, id?, hmem, hbranch, hfilter⟩ := h.of_mem hid
  have hextract : move.extracts = false := by
    refine Bool.eq_false_iff.mpr fun hextract => ?_
    exact absurd ((hmoves move relevance next hmem hextract).symm.trans hread) nofun
  cases id? with
  | none => cases hfilter
  | some u =>
      obtain ⟨node, hnode, hmove⟩ := hbranch.exists_move?
      exact hfilter.firm (firm_of_move? hnode hmove hextract)

theorem Owns.firm {c : TypeName} (h : l.Owns rule c ended (some id)) : l.Firm id := by
  cases h with
  | @ended _ part _ hknown hfilter =>
      cases part with
      | none => cases hfilter
      | some place => exact hfilter.firm (.part ⟨c, hknown⟩)

theorem Enters.firm {c : TypeName} (h : l.Enters rule ended continuation c (some id))
    (hcontinue : ∀ k ∈ continuation, l.Firm k) : l.Firm id := by
  obtain ⟨own, hown, hjoin⟩ := h
  refine hjoin.firm fun k hk => ?_
  rcases List.mem_append.mp hk with hk | hk
  · cases Option.mem_toList.mp hk
    exact hown.firm
  · exact hcontinue k (Option.mem_toList.mp hk)

/-- What continues after a move that comes to an object is firm. -/
theorem Branches.firm_continuation {t : Trie} {before : Move}
    (hfollow : t.Follows before) (hread : before.reads = false)
    (h : l.Branches m rule t.branches ids) (hjoin : l.Joins ids continuation) :
    ∀ k ∈ continuation, l.Firm k := by
  rintro k rfl
  cases hfollow with
  | fork hmoves _ => exact hjoin.firm (h.firm hread hmoves)

end Layout

end IndexSync
