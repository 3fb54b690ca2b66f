import IndexSync.Proofs.Tree.Sequences

/-!
# Laid-out trees

What the nodes of a layout stand for, apart from how they were laid out.

- `Node.move?`, `Node.relevance?` — the move that a node makes, and what a filter asks for.
- `Layout.Extends` — a later layout keeps what an earlier one has finished.
- `Layout.Joins`, `Precedes`, `Filters`, `Owns`, `Enters`, `Lands` — single
  nodes; a node comes after the nodes it refers to, unless these are parts.
- `Layout.Branch`, `Layout.Branches` — merged sequences of moves.
- `Layout.Part`, `Layout.IsPart` — the document part of a concrete type, and its place.
-/

namespace IndexSync

namespace Node

/-- The move that a node makes. -/
def move? : Node → Option Move
  | type static _ => some (.land static)
  | cast target _ => some (.cast target)
  | property name _ => some (.read name)
  | extract e _ => some (.extract e)
  | union _ | ifDirty _ _ | reindex | pending => none

/-- The ordinals that a filter asks for. -/
def relevance? : Node → Option OrdinalSet
  | ifDirty relevance _ => some relevance
  | _ => none

end Node

namespace Layout

/-! ## Single nodes -/

/-- `id?` stands for all the nodes `ids`. -/
inductive Joins (l : Layout) : (ids : List NodeId) → (id? : Option NodeId) → Prop
  | none : Joins l [] none
  | one (id : NodeId) : Joins l [id] (some id)
  | union {ids : List NodeId} {u : NodeId} : l.arena.get? u = some (.union ids) →
      (∀ id ∈ ids, id < u) → 1 < ids.length → Joins l ids (some u)

/-- A node in front of another one, if there is any. -/
inductive Precedes (l : Layout) (node : NodeId → Node) : Option NodeId → Option NodeId → Prop
  | none : Precedes l node none none
  | some {nested u : NodeId} : l.arena.get? u = some (node nested) → nested < u →
      Precedes l node (some nested) (some u)

/-- The node itself, or a filter in front of it where one belongs. -/
inductive Filters (l : Layout) (rule : FilterRule) (relevance : OrdinalSet) :
    Option NodeId → Option NodeId → Prop
  | none : Filters l rule relevance none none
  | free {id : NodeId} : rule.narrows relevance = false →
      Filters l rule relevance (some id) (some id)
  | behind {id u : NodeId} : rule.narrows relevance = true →
      l.arena.get? u = some (.ifDirty relevance id) → id < u →
      Filters l rule relevance (some id) (some u)

/-- The part of a concrete type, where sequences have ended. -/
inductive Owns (l : Layout) (rule : FilterRule) (concrete : TypeName) :
    Option OrdinalSet → Option NodeId → Prop
  | unended : Owns l rule concrete none none
  | ended {relevance : OrdinalSet} {part own : Option NodeId} :
      l.parts[concrete]? = some part → Filters l rule relevance part own →
      Owns l rule concrete (some relevance) own

/-- What there is to do at an object of a concrete type. -/
def Enters (l : Layout) (rule : FilterRule) (ended : Option OrdinalSet)
    (continuation : Option NodeId) (concrete : TypeName) (id? : Option NodeId) : Prop :=
  ∃ own, l.Owns rule concrete ended own ∧ l.Joins (own.toList ++ continuation.toList) id?

/-- A landing, unless no concrete type has anything to do there. -/
inductive Lands (l : Layout) (rule : FilterRule) (static : TypeName) (concretes : List TypeName)
    (ended : Option OrdinalSet) (continuation : Option NodeId) : Option NodeId → Prop
  | nowhere : (∀ c ∈ concretes, l.Enters rule ended continuation c none) →
      Lands l rule static concretes ended continuation none
  | somewhere {u : NodeId} {dispatch : SortedMap TypeName NodeId} :
      l.arena.get? u = some (.type static dispatch) →
      (∀ c ∈ concretes, l.Enters rule ended continuation c dispatch[c]?) →
      (∀ c id, dispatch[c]? = some id → c ∈ concretes) →
      (∃ (c : TypeName) (id : NodeId), dispatch[c]? = some id) →
      Lands l rule static concretes ended continuation (some u)

/-! ## Merged sequences -/

/-- The node that makes a move towards a continuation. -/
def Makes (l : Layout) (m : Schema) (rule : FilterRule) (ended : Option OrdinalSet)
    (continuation : Option NodeId) : Move → Option NodeId → Prop
  | .read name, id? => l.Precedes (.property name) continuation id?
  | .extract e, id? => l.Precedes (.extract e) continuation id?
  | .cast target, id? => l.Precedes (.cast target) continuation id?
  | .land type, id? => l.Lands rule type (m.concretesUnder type) ended continuation id?

mutual

/-- What follows the move of one branch, behind that move. -/
def Branch (l : Layout) (m : Schema) (rule : FilterRule) (move : Move) :
    Trie → Option NodeId → Prop
  | .fork ended branches, id? =>
      ∃ ids continuation, Branches l m rule branches ids ∧ l.Joins ids continuation ∧
        l.Makes m rule ended continuation move id?

/-- The branches that lead anywhere, in order. -/
def Branches (l : Layout) (m : Schema) (rule : FilterRule) :
    List (Move × OrdinalSet × Trie) → List NodeId → Prop
  | [], ids => ids = []
  | (move, relevance, next) :: rest, ids =>
      ∃ id? here more, Branch l m (rule.inside relevance) move next id? ∧
        l.Filters rule relevance id? here ∧ Branches l m rule rest more ∧
        ids = here.toList ++ more

end

/-- A whole tree. -/
def Tree (l : Layout) (m : Schema) (rule : FilterRule) (static : TypeName)
    (concretes : List TypeName) (trie : Trie) (id? : Option NodeId) : Prop :=
  ∃ ids continuation, Branches l m rule trie.branches ids ∧ l.Joins ids continuation ∧
    l.Lands rule static concretes trie.ended continuation id?

/-! ## Document parts -/

variable {schema : Schema}

/-- The merged moves of the edges from a concrete type. -/
def embeddingTrie (mapping : Mapping schema) (concrete : TypeName) : Trie :=
  .ofSequences ((mapping.embeddingMoves concrete).map fun moves => (moves, .empty))

/-- The mark of an indexed type. -/
def Marks (l : Layout) (indexed : Bool) (mark : List NodeId) : Prop :=
  if indexed then ∃ id, mark = [id] ∧ l.arena.get? id = some .reindex else mark = []

/-- The document part of a concrete type: its mark, and the edges from it. -/
def Part (l : Layout) (mapping : Mapping schema) (concrete : TypeName) (place : NodeId) : Prop :=
  ∃ mark ends embedding,
    l.arena.get? place = some (.union (mark ++ embedding.toList)) ∧
    l.Marks (mapping.isIndexed concrete) mark ∧
    l.Branches schema .never (embeddingTrie mapping concrete).branches ends ∧
    l.Joins ends embedding

/-- The node is the document part of a type. -/
def IsPart (l : Layout) (id : NodeId) : Prop :=
  ∃ c : TypeName, l.parts[c]? = some (some id)

/-! ## Layouts that grow -/

/-- Finished nodes and parts stay. -/
structure Extends (l l' : Layout) : Prop where
  node : ∀ {id : NodeId} {node : Node},
    l.arena.get? id = some node → node ≠ .pending → l'.arena.get? id = some node
  part : ∀ {type : TypeName} {part : Option NodeId},
    l.parts[type]? = some part → l'.parts[type]? = some part
  size : l.arena.size ≤ l'.arena.size

variable {l l' : Layout} {m : Schema} {rule : FilterRule}

theorem Extends.refl (l : Layout) : l.Extends l :=
  ⟨fun h _ => h, id, Nat.le_refl _⟩

theorem Extends.trans {l'' : Layout} (h : l.Extends l') (h' : l'.Extends l'') : l.Extends l'' :=
  ⟨fun hn hp => h'.node (h.node hn hp) hp, fun hp => h'.part (h.part hp),
    Nat.le_trans h.size h'.size⟩

section

variable (h : l.Extends l')
include h

theorem Joins.extend {ids : List NodeId} {id? : Option NodeId} (hj : l.Joins ids id?) :
    l'.Joins ids id? := by
  cases hj with
  | none => exact .none
  | one id => exact .one id
  | union hnode hlt hmany => exact .union (h.node hnode nofun) hlt hmany

theorem Precedes.extend {node : NodeId → Node} {nested id? : Option NodeId}
    (hnode : ∀ id, node id ≠ .pending) (hp : l.Precedes node nested id?) :
    l'.Precedes node nested id? := by
  cases hp with
  | none => exact .none
  | some hu hlt => exact .some (h.node hu (hnode _)) hlt

theorem Filters.extend {relevance : OrdinalSet} {id? id?' : Option NodeId}
    (hf : l.Filters rule relevance id? id?') : l'.Filters rule relevance id? id?' := by
  cases hf with
  | none => exact .none
  | free hn => exact .free hn
  | behind hn hu hlt => exact .behind hn (h.node hu nofun) hlt

theorem Owns.extend {concrete : TypeName} {ended : Option OrdinalSet} {own : Option NodeId}
    (ho : l.Owns rule concrete ended own) : l'.Owns rule concrete ended own := by
  cases ho with
  | unended => exact .unended
  | ended hpart hf => exact .ended (h.part hpart) (hf.extend h)

theorem Enters.extend {ended : Option OrdinalSet} {continuation id? : Option NodeId}
    {concrete : TypeName} (he : l.Enters rule ended continuation concrete id?) :
    l'.Enters rule ended continuation concrete id? := by
  obtain ⟨own, hown, hjoin⟩ := he
  exact ⟨own, hown.extend h, hjoin.extend h⟩

theorem Lands.extend {static : TypeName} {concretes : List TypeName} {ended : Option OrdinalSet}
    {continuation id? : Option NodeId} (hl : l.Lands rule static concretes ended continuation id?) :
    l'.Lands rule static concretes ended continuation id? := by
  cases hl with
  | nowhere hall => exact .nowhere fun c hc => (hall c hc).extend h
  | somewhere hu hall hkeys hsome =>
      exact .somewhere (h.node hu nofun) (fun c hc => (hall c hc).extend h) hkeys hsome

theorem Makes.extend {ended : Option OrdinalSet} {continuation id? : Option NodeId} {move : Move}
    (hm : l.Makes m rule ended continuation move id?) :
    l'.Makes m rule ended continuation move id? := by
  cases move with
  | read name => exact Precedes.extend h nofun hm
  | extract e => exact Precedes.extend h nofun hm
  | cast target => exact Precedes.extend h nofun hm
  | land type => exact Lands.extend h hm

mutual

theorem Branch.extend {move : Move} {rule : FilterRule} :
    ∀ {t : Trie} {id? : Option NodeId}, l.Branch m rule move t id? → l'.Branch m rule move t id?
  | .fork _ _, _, hb => by
      rw [Branch] at hb ⊢
      obtain ⟨ids, continuation, hids, hjoin, hmake⟩ := hb
      exact ⟨ids, continuation, Branches.extend hids, hjoin.extend h, hmake.extend h⟩

theorem Branches.extend {rule : FilterRule} :
    ∀ {branches : List (Move × OrdinalSet × Trie)} {ids : List NodeId},
      l.Branches m rule branches ids → l'.Branches m rule branches ids
  | [], _, hb => by
      rw [Branches] at hb ⊢
      exact hb
  | (_, _, _) :: _, _, hb => by
      rw [Branches] at hb ⊢
      obtain ⟨id?, here, more, hbranch, hfilter, hrest, heq⟩ := hb
      exact ⟨id?, here, more, Branch.extend hbranch, hfilter.extend h, Branches.extend hrest, heq⟩

end

theorem Tree.extend {static : TypeName} {concretes : List TypeName} {trie : Trie}
    {id? : Option NodeId} (ht : l.Tree m rule static concretes trie id?) :
    l'.Tree m rule static concretes trie id? := by
  obtain ⟨ids, continuation, hids, hjoin, hland⟩ := ht
  exact ⟨ids, continuation, Branches.extend h hids, hjoin.extend h, hland.extend h⟩

theorem Marks.extend {indexed : Bool} {mark : List NodeId} (hm : l.Marks indexed mark) :
    l'.Marks indexed mark := by
  cases indexed with
  | false => exact hm
  | true =>
      obtain ⟨id, rfl, hid⟩ := hm
      exact ⟨id, rfl, h.node hid nofun⟩

theorem Part.extend {mapping : Mapping schema} {concrete : TypeName} {place : NodeId}
    (hp : l.Part mapping concrete place) : l'.Part mapping concrete place := by
  obtain ⟨mark, ends, embedding, hplace, hmark, hends, hjoin⟩ := hp
  exact ⟨mark, ends, embedding, h.node hplace nofun, hmark.extend h, Branches.extend h hends,
    hjoin.extend h⟩

end

/-! ## Members of branches and marks -/

/-- Every branch that leads anywhere has its node. -/
theorem Branches.exists_node {branches : List (Move × OrdinalSet × Trie)} {ids : List NodeId}
    (h : l.Branches m rule branches ids) {move : Move} {relevance : OrdinalSet} {next : Trie}
    (hmem : (move, relevance, next) ∈ branches) :
    ∃ id? here, l.Branch m (rule.inside relevance) move next id? ∧
      l.Filters rule relevance id? here ∧ here.toList ⊆ ids := by
  induction branches generalizing ids with
  | nil => cases hmem
  | cons b rest ih =>
      obtain ⟨move', relevance', next'⟩ := b
      rw [Branches] at h
      obtain ⟨id?, here, more, hbranch, hfilter, hrest, rfl⟩ := h
      rcases List.mem_cons.mp hmem with heq | hmem
      · cases heq
        exact ⟨id?, here, hbranch, hfilter, List.subset_append_left _ _⟩
      · obtain ⟨id?', here', hbranch', hfilter', hsub⟩ := ih hrest hmem
        exact ⟨id?', here', hbranch', hfilter', List.subset_append_of_subset_right _ hsub⟩

/-- Every node is that of a branch. -/
theorem Branches.of_mem {branches : List (Move × OrdinalSet × Trie)} {ids : List NodeId}
    (h : l.Branches m rule branches ids) {id : NodeId} (hid : id ∈ ids) :
    ∃ move relevance next id?, (move, relevance, next) ∈ branches ∧
      l.Branch m (rule.inside relevance) move next id? ∧
      l.Filters rule relevance id? (some id) := by
  induction branches generalizing ids with
  | nil =>
      rw [Branches] at h
      subst h
      cases hid
  | cons b rest ih =>
      obtain ⟨move, relevance, next⟩ := b
      rw [Branches] at h
      obtain ⟨id?, here, more, hbranch, hfilter, hrest, rfl⟩ := h
      rcases List.mem_append.mp hid with hid | hid
      · cases Option.mem_toList.mp hid
        exact ⟨move, relevance, next, id?, List.mem_cons_self, hbranch, hfilter⟩
      · obtain ⟨move', relevance', next', id?', hmem, h'⟩ := ih hrest hid
        exact ⟨move', relevance', next', id?', List.mem_cons_of_mem _ hmem, h'⟩

/-- Only indexed types have a mark. -/
theorem Marks.of_mem {indexed : Bool} {mark : List NodeId} (h : l.Marks indexed mark) {id : NodeId}
    (hid : id ∈ mark) : indexed = true ∧ l.arena.get? id = some .reindex := by
  by_cases hindexed : indexed = true
  · rw [Marks, if_pos hindexed] at h
    obtain ⟨id', rfl, hmark⟩ := h
    cases List.mem_singleton.mp hid
    exact ⟨hindexed, hmark⟩
  · rw [Marks, if_neg hindexed] at h
    subst h
    cases hid

/-! ## The node of a branch -/

theorem Makes.exists_move? {ended : Option OrdinalSet} {continuation : Option NodeId} {move : Move}
    {id : NodeId} (h : l.Makes m rule ended continuation move (some id)) :
    ∃ node, l.arena.get? id = some node ∧ node.move? = some move := by
  cases move with
  | read | extract | cast =>
      cases h with
      | some hid => exact ⟨_, hid, rfl⟩
  | land =>
      cases h with
      | somewhere hid => exact ⟨_, hid, rfl⟩

theorem Branch.exists_move? {move : Move} {t : Trie} {id : NodeId}
    (h : l.Branch m rule move t (some id)) :
    ∃ node, l.arena.get? id = some node ∧ node.move? = some move := by
  cases t
  rw [Branch] at h
  obtain ⟨_, _, _, _, hmake⟩ := h
  exact hmake.exists_move?

/-! ## Nodes lie within the arena -/

theorem Makes.lt_size {ended : Option OrdinalSet}
    {continuation : Option NodeId} {move : Move} {id : NodeId}
    (h : l.Makes m rule ended continuation move (some id)) : id < l.arena.size := by
  cases move with
  | read | extract | cast =>
      cases h with
      | some hu => exact Arena.lt_size_of_get? hu
  | land =>
      cases h with
      | somewhere hu => exact Arena.lt_size_of_get? hu

theorem Branch.lt_size {move : Move} {t : Trie} {id : NodeId}
    (h : l.Branch m rule move t (some id)) : id < l.arena.size := by
  cases t
  rw [Branch] at h
  obtain ⟨_, _, _, _, hmake⟩ := h
  exact hmake.lt_size

theorem Branches.lt_size
    {branches : List (Move × OrdinalSet × Trie)} {ids : List NodeId}
    (h : l.Branches m rule branches ids) {id : NodeId} (hid : id ∈ ids) : id < l.arena.size := by
  obtain ⟨move, relevance, next, id?, -, hbranch, hfilter⟩ := h.of_mem hid
  cases hfilter with
  | free => exact hbranch.lt_size
  | behind _ hu => exact Arena.lt_size_of_get? hu

theorem Joins.lt_size {ids : List NodeId} {id : NodeId} (h : l.Joins ids (some id))
    (hlt : ∀ id ∈ ids, id < l.arena.size) : id < l.arena.size := by
  cases h with
  | one => exact hlt id (List.mem_singleton_self id)
  | union hu => exact Arena.lt_size_of_get? hu

end Layout

end IndexSync
