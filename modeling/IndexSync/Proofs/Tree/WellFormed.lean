import IndexSync.Proofs.Tree.Explained
import IndexSync.Proofs.Tree.Nesting

/-!
# Well-formed trees

Every tree gets built, without a bound on how deep parts nest, and its nodes make up a
graph that a walk can follow.

- `Arena.Lands`, `Arena.Passes`, `Arena.ExtractsNext` — what a node does before the next move.
- `Layout.Sound.lands_of_cycle` — each cycle meets an object.
- `Layout.Sound.not_extractsNext` — no extractor comes next behind a firm node.
- `Walk.value_of_extracts` — so no walk comes to an extractor with an object.
- `ChangeTree.WellFormed`, `ChangeTree.build_wellFormed` — all of this, for every tree.
-/

namespace IndexSync

open Relation

namespace Arena

/-- The node meets an object. -/
def Lands (a : Arena) (id : NodeId) : Prop :=
  ∃ static dispatch, a.get? id = some (.type static dispatch)

/-- The node takes a container apart. -/
def Extracts (a : Arena) (id : NodeId) : Prop :=
  ∃ e nested, a.get? id = some (.extract e nested)

/-- A union or a filter leads to the next node; whatever is stood on stays the same. -/
def Passes (a : Arena) (id next : NodeId) : Prop :=
  (∃ children, a.get? id = some (.union children) ∧ next ∈ children) ∨
    ∃ relevance, a.get? id = some (.ifDirty relevance next)

/-- An extractor comes next, with nothing but unions and filters in front of it. -/
def ExtractsNext (a : Arena) (id : NodeId) : Prop :=
  ∃ k, ReflTransGen a.Passes id k ∧ a.Extracts k

/-- Unions and filters apart, only what reads a property or takes a container apart leads to
an extractor. -/
def ReadsFirst (a : Arena) : Prop :=
  ∀ id next, a.Refers id next → ¬ a.Passes id next → a.ExtractsNext next →
    (∃ name, a.get? id = some (.property name next)) ∨
      ∃ e, a.get? id = some (.extract e next)

/-- A node that meets no object refers to another one. -/
def Nests (a : Arena) (id next : NodeId) : Prop :=
  ¬ a.Lands id ∧ a.Refers id next

variable {a : Arena} {id next last : NodeId}

theorem move?_of_passes {node : Node} (h : a.Passes id next) (hnode : a.get? id = some node) :
    node.move? = none ∧ next ∈ node.children := by
  rcases h with ⟨children, hunion, hnext⟩ | ⟨relevance, hfilter⟩
  · cases hunion.symm.trans hnode
    exact ⟨rfl, hnext⟩
  · cases hfilter.symm.trans hnode
    exact ⟨rfl, List.mem_singleton_self next⟩

theorem refers_of_passes (h : a.Passes id next) : a.Refers id next := by
  rcases h with ⟨children, hunion, hnext⟩ | ⟨relevance, hfilter⟩
  · exact ⟨_, hunion, hnext⟩
  · exact ⟨_, hfilter, List.mem_singleton_self next⟩

/-- An extractor that comes next behind what is passed comes next here. -/
theorem ExtractsNext.of_passes (h : a.ExtractsNext next) (hpass : a.Passes id next) :
    a.ExtractsNext id := by
  obtain ⟨k, hahead, hextract⟩ := h
  exact ⟨k, .head hpass hahead, hextract⟩

/-- Nothing that has met an object leads to an extractor. -/
theorem ReadsFirst.not_extractsNext (h : a.ReadsFirst) {node : Node} {move : Move}
    (hnode : a.get? id = some node) (hmove : node.move? = some move) (hread : move.reads = false)
    (hnext : next ∈ node.children) : ¬ a.ExtractsNext next := by
  intro hextract
  have hpass : ¬ a.Passes id next := fun hpass =>
    absurd ((move?_of_passes hpass hnode).1.symm.trans hmove) nofun
  rcases h id next ⟨node, hnode, hnext⟩ hpass hextract with ⟨_, hid⟩ | ⟨_, hid⟩ <;>
    cases hid.symm.trans hnode <;> cases hmove <;> cases hread

/-! ## Cycles -/

/-- A way through the arena meets an object, or nests all along. -/
theorem lands_or_nests {path : List NodeId} (h : (id :: (path ++ [last])).IsChain a.Refers) :
    (∃ k ∈ id :: path, a.Lands k) ∨ TransGen a.Nests id last := by
  by_cases hland : a.Lands id
  · exact .inl ⟨id, List.mem_cons_self, hland⟩
  · induction path generalizing id with
    | nil => exact .inr (.single ⟨hland, (List.isChain_cons_cons.mp h).1⟩)
    | cons k path ih =>
        obtain ⟨hfirst, hrest⟩ := List.isChain_cons_cons.mp h
        by_cases hk : a.Lands k
        · exact .inl ⟨k, by simp, hk⟩
        · rcases ih hrest hk with ⟨k', hmem, hland'⟩ | hnest
          · exact .inl ⟨k', .tail _ hmem, hland'⟩
          · exact .inr (.head ⟨hland, hfirst⟩ hnest)

theorem Descends.of_nests (h : a.Descends id) (hnest : a.Nests id next) :
    next < id ∧ a.Descends next := by
  obtain ⟨hland, node, hnode, hnext⟩ := hnest
  cases h with
  | landing hid => exact absurd ⟨_, _, hid⟩ hland
  | onward hid hlt hall =>
      cases hid.symm.trans hnode
      exact ⟨hlt next hnext, hall next hnext⟩

theorem Descends.lt_of_transGen (h : a.Descends id) (hnest : TransGen a.Nests id last) :
    last < id := by
  suffices hall : last < id ∧ a.Descends last from hall.1
  induction hnest with
  | single hstep => exact h.of_nests hstep
  | tail _ hstep ih =>
      obtain ⟨hlt, hdescend⟩ := ih.2.of_nests hstep
      exact ⟨Nat.lt_trans hlt ih.1, hdescend⟩

end Arena

namespace Layout

variable {l : Layout} {schema : Schema} {mapping : Mapping schema} {id next k : NodeId}

/-- A node is a part, or lies behind what it nests. -/
theorem Sound.of_nests (h : l.Sound mapping []) (hnest : l.arena.Nests id next) :
    next < id ∨ l.arena.Descends next := by
  obtain ⟨-, node, hnode, hnext⟩ := hnest
  rcases h.ordered hnode with ⟨c, hpart⟩ | hlt
  · obtain ⟨children, hplace, hall⟩ := (h.laid hpart nofun).descends
    cases hplace.symm.trans hnode
    exact .inr (hall next hnext).2
  · exact .inl (hlt next hnext)

theorem Sound.not_nests_self (h : l.Sound mapping []) : ¬ TransGen l.arena.Nests id id := by
  intro hcycle
  have hall : ∀ k, TransGen l.arena.Nests id k → k < id ∨ l.arena.Descends k := by
    intro k hk
    induction hk with
    | single hstep => exact h.of_nests hstep
    | tail _ hstep ih =>
        rcases ih with hlt | hdescend
        · exact (h.of_nests hstep).imp_left fun hlt' => Nat.lt_trans hlt' hlt
        · exact .inr (hdescend.of_nests hstep).2
  -- once past a part, nothing but earlier nodes would follow
  rcases hall id hcycle with hlt | hdescend
  · exact Nat.lt_irrefl id hlt
  · exact Nat.lt_irrefl id (hdescend.lt_of_transGen hcycle)

/-- Each cycle meets an object. -/
theorem Sound.lands_of_cycle (h : l.Sound mapping []) {path : List NodeId}
    (hcycle : (id :: (path ++ [id])).IsChain l.arena.Refers) :
    ∃ k ∈ id :: path, l.arena.Lands k :=
  (Arena.lands_or_nests hcycle).resolve_right h.not_nests_self

/-! ## Extractors -/

/-- What a part goes on with is firm. -/
theorem Part.firm {c : TypeName} (h : l.Part mapping c id) (hrefers : l.arena.Refers id next) :
    l.Firm next := by
  obtain ⟨mark, ends, embedding, hplace, hmark, hends, hjoin⟩ := h
  obtain ⟨node, hnode, hnext⟩ := hrefers
  cases hplace.symm.trans hnode
  rcases List.mem_append.mp hnext with hnext | hnext
  · exact .onward (hmark.of_mem hnext).2 nofun nofun fun _ => nofun
  · refine Branches.firm_continuation (follows_embeddingTrie mapping c c) rfl hends hjoin next ?_
    exact Option.mem_toList.mp hnext

theorem Sound.firm_of_passes (h : l.Sound mapping []) (hfirm : l.Firm id)
    (hpass : l.arena.Passes id next) : l.Firm next := by
  cases hfirm with
  | part hpart =>
      obtain ⟨c, hc⟩ := hpart
      exact (h.laid hc nofun).firm (Arena.refers_of_passes hpass)
  | onward hnode _ _ hnext =>
      obtain ⟨hmove, hchild⟩ := Arena.move?_of_passes hpass hnode
      exact hnext hmove next hchild

theorem Firm.lt_size (h : l.Firm id) (hsound : l.Sound mapping []) : id < l.arena.size := by
  cases h with
  | part hpart =>
      obtain ⟨c, hc⟩ := hpart
      exact hsound.bound hc
  | onward hnode => exact Arena.lt_size_of_get? hnode

/-- No extractor comes next behind a firm node. -/
theorem Sound.not_extractsNext (h : l.Sound mapping []) (hfirm : l.Firm id) :
    ¬ l.arena.ExtractsNext id := by
  have hahead : ∀ k, ReflTransGen l.arena.Passes id k → l.Firm k := by
    intro k hk
    induction hk with
    | refl => exact hfirm
    | tail _ hpass ih => exact h.firm_of_passes ih hpass
  rintro ⟨k, hk, e, nested, hextract⟩
  cases hahead k hk with
  | part hpart =>
      obtain ⟨c, hc⟩ := hpart
      obtain ⟨children, hplace, -⟩ := (h.laid hc nofun).descends
      cases hplace.symm.trans hextract
  | onward hnode _ hmove _ =>
      cases hnode.symm.trans hextract
      cases hmove _ rfl

theorem Sound.readsFirst {keys : TypeName → TypeName → Prop} (h : l.Sound mapping [])
    (hwired : l.Wired keys) : l.arena.ReadsFirst := by
  rintro id next ⟨node, hnode, hnext⟩ hpass hextract
  have hfirm := (hwired id node hnode).firm
  cases node with
  | type => exact absurd hextract (h.not_extractsNext (hfirm _ rfl rfl next hnext))
  | cast => exact absurd hextract (h.not_extractsNext (hfirm _ rfl rfl next hnext))
  | property name =>
      cases List.mem_singleton.mp hnext
      exact .inl ⟨name, hnode⟩
  | extract e =>
      cases List.mem_singleton.mp hnext
      exact .inr ⟨e, hnode⟩
  | union children => exact absurd (.inl ⟨children, hnode, hnext⟩) hpass
  | ifDirty relevance =>
      cases List.mem_singleton.mp hnext
      exact absurd (.inr ⟨relevance, hnode⟩) hpass
  | reindex => cases hnext
  | pending => cases hnext

end Layout

/-! ## Walks -/

namespace Walk

variable {schema : Schema} {w : Walk schema}

/-- An object is stood on where no extractor comes next only. -/
def Apart (w : Walk schema) (p : Place) : Prop :=
  ∀ o, p.2 = .object o → ¬ w.arena.ExtractsNext p.1

theorem Apart.of_leads (hreads : w.arena.ReadsFirst) {p q : Place} (h : w.Apart p)
    (hlead : w.Leads p q) : w.Apart q := by
  obtain ⟨id, f⟩ := p
  obtain ⟨next, g⟩ := q
  rintro o (rfl : g = .object o) hextract
  cases hnode : w.arena.get? id with
  | none =>
      obtain ⟨followed, hfollow, -⟩ := hlead
      simp [follow, hnode] at hfollow
  | some node =>
      cases node with
      | type static dispatch =>
          obtain ⟨_, c, _, -, -, hc, heq⟩ := (leads_type hnode).mp hlead
          cases heq
          exact hreads.not_extractsNext hnode rfl rfl (SortedMap.mem_contents hc) hextract
      | cast target nested =>
          obtain ⟨_, -, -, heq⟩ := (leads_cast hnode).mp hlead
          cases heq
          exact hreads.not_extractsNext hnode rfl rfl (List.mem_singleton_self next) hextract
      | property name nested =>
          obtain ⟨_, -, heq⟩ := (leads_property hnode).mp hlead
          cases heq
      | extract e nested =>
          obtain ⟨_, -, heq⟩ := (leads_extract hnode).mp hlead
          cases heq
      | union children =>
          obtain ⟨child, hchild, heq⟩ := (leads_union hnode).mp hlead
          cases heq
          exact h o rfl (hextract.of_passes (.inl ⟨children, hnode, hchild⟩))
      | ifDirty relevance nested =>
          obtain ⟨-, heq⟩ := (leads_ifDirty hnode).mp hlead
          cases heq
          exact h o rfl (hextract.of_passes (.inr ⟨relevance, hnode⟩))
      | reindex => exact not_leads_reindex hnode hlead
      | pending =>
          obtain ⟨followed, hfollow, -⟩ := hlead
          simp [follow, hnode] at hfollow

/-- A walk comes to extractors with values only. -/
theorem value_of_extracts (hreads : w.arena.ReadsFirst) {start id : NodeId} {o : ObjectId}
    {n : Nat} {f : Footing} (hstart : ¬ w.arena.ExtractsNext start)
    (hreach : w.Reaches n (start, .object o) (id, f)) (hextract : w.arena.Extracts id) :
    ∃ v, f = .value v := by
  have hapart : ∀ {m : Nat} {p q : Place}, w.Reaches m p q → w.Apart p → w.Apart q := by
    intro m p q hpq
    induction hpq with
    | refl => exact fun hp => hp
    | head hlead _ ih => exact fun hp => ih (hp.of_leads hreads hlead)
  have hend : w.Apart (id, f) := hapart hreach fun _ _ => hstart
  cases f with
  | value v => exact ⟨v, rfl⟩
  | object o' => exact absurd ⟨id, .refl, hextract⟩ (hend o' rfl)

end Walk

/-! ## Whole trees -/

namespace ChangeTree

/-- Where updates or deletions start. -/
def Starts (tree : ChangeTree) (id : NodeId) : Prop :=
  tree.root = some id ∨ tree.ownPart = some id

/-- The nodes of a tree make up a graph that a walk can follow. -/
structure WellFormed (schema : Schema) (tree : ChangeTree) : Prop where
  filled : ∀ id, tree.arena.get? id ≠ some .pending
  closed : ∀ id next, tree.arena.Refers id next → next < tree.arena.size
  started : ∀ id, tree.Starts id → id < tree.arena.size
  /-- From a node and back to it, an object is met. -/
  cycles : ∀ id path, (id :: (path ++ [id])).IsChain tree.arena.Refers →
    ∃ k ∈ id :: path, tree.arena.Lands k
  reads : tree.arena.ReadsFirst
  begins : ∀ id, tree.Starts id → ¬ tree.arena.ExtractsNext id
  /-- Whatever the store, no walk comes to an extractor with an object. -/
  values : ∀ (w : Walk schema) (start : NodeId) (o : ObjectId) (n : Nat) (id : NodeId)
    (f : Footing), w.arena = tree.arena → tree.Starts start →
    w.Reaches n (start, .object o) (id, f) → tree.arena.Extracts id → ∃ v, f = .value v
  keys : ∀ (id : NodeId) (static : TypeName) (dispatch : SortedMap TypeName NodeId)
    (c : TypeName) (nested : NodeId), tree.arena.get? id = some (.type static dispatch) →
    dispatch[c]? = some nested → schema.isConcrete c = true ∧ schema.fits c static = true

variable {defs : List TypeDef} {schema : Schema} {ds : Declarations} {mapping : Mapping schema}
  {filtering : Bool} {type : TypeName} {tree : ChangeTree}

theorem Built.firm_of_starts {l : Layout} (h : tree.Built mapping filtering type l) {id : NodeId}
    (hstart : tree.Starts id) : l.Firm id := by
  rcases hstart with hroot | hown
  · obtain ⟨_, _, -, -, hland⟩ := hroot ▸ h.root
    cases hland with
    | somewhere hid => exact Layout.firm_of_move? hid rfl rfl
  · exact .part ⟨type, hown ▸ h.ownPart⟩

theorem Built.wellFormed {l : Layout} (h : tree.Built mapping filtering type l)
    (hwired : l.Wired fun static c => schema.isConcrete c = true ∧ schema.fits c static = true) :
    tree.WellFormed schema := by
  have hreads : tree.arena.ReadsFirst := h.arena ▸ h.sound.readsFirst hwired
  have hbegins : ∀ id, tree.Starts id → ¬ tree.arena.ExtractsNext id := by
    rw [h.arena]
    exact fun _ hstart => h.sound.not_extractsNext (h.firm_of_starts hstart)
  refine ⟨?_, ?_, ?_, ?_, hreads, hbegins, ?_, ?_⟩
  · rw [h.arena]
    exact fun id hid => h.sound.finished.filled hid rfl
  · rw [h.arena]
    rintro id next ⟨node, hnode, hnext⟩
    exact h.sound.finished.closed hnode next hnext
  · rw [h.arena]
    exact fun _ hstart => (h.firm_of_starts hstart).lt_size h.sound
  · rw [h.arena]
    exact fun _ _ => h.sound.lands_of_cycle
  · intro w start o n id f harena hstart hreach hextract
    rw [← harena] at hreads hextract
    exact Walk.value_of_extracts hreads (harena ▸ hbegins start hstart) hreach hextract
  · rw [h.arena]
    exact fun id static dispatch c nested hid hc =>
      (hwired id _ hid).key static dispatch rfl c nested hc

/-- Every tree gets built, however deep parts may nest, and is well formed. -/
theorem build_wellFormed (hschema : Schema.ofDefinitions defs = .ok schema)
    (hcompile : Mapping.compile schema ds = .ok mapping) (filtering : Bool)
    (htype : schema.isConcrete type = true) :
    ∃ tree, build mapping filtering type = .ok tree ∧ tree.WellFormed schema ∧
      ∀ depth, schema.concretes.length < depth →
        (layWithin depth mapping filtering type).run .empty =
          (lay mapping filtering type).run .empty := by
  have hm := Schema.coherent_of_accepted hschema
  have hclosed := Mapping.closed_of_compile hm hcompile
  obtain ⟨tree, hbuild, hbuilt⟩ := build_layout hclosed.bounded filtering type
  have hkeys : ∀ static, ∀ c ∈ schema.concretesUnder static,
      schema.isConcrete c = true ∧ schema.fits c static = true :=
    fun static c => hm.mem_concretesUnder_iff.mp
  have hself : schema.isConcrete type = true ∧ schema.fits type type = true :=
    ⟨htype, hm.fits_refl (Schema.isConcrete_iff.mp htype).1⟩
  have hgrowing := (builds_lay hkeys hclosed.bounded filtering hself).2.1
  exact ⟨tree, hbuild, hbuilt.wellFormed hgrowing.wired,
    fun depth hdepth => run_layWithin hclosed.bounded hdepth filtering type⟩

/-- The document part of a person leads back to itself, past a landing. -/
theorem build_wellFormed_couple :
    Sample.coupleTree.WellFormed Sample.coupleSchema ∧
      ∃ k ∈ [0, 3, 2], Sample.coupleTree.arena.Lands k := by
  have hconcrete : Sample.coupleSchema.isConcrete "Person" = true := by decide +kernel
  obtain ⟨tree, hbuild, hwell, -⟩ := build_wellFormed (Except.eq_ok_value _)
    Sample.compile_couple true hconcrete
  obtain rfl : tree = Sample.coupleTree :=
    Except.ok.inj (hbuild.symm.trans (Except.eq_ok_value _))
  have hpart : Sample.coupleTree.arena.Refers 0 3 :=
    ⟨.union [1, 3], by decide +kernel, by decide⟩
  have hspouse : Sample.coupleTree.arena.Refers 3 2 :=
    ⟨.property "spouse" 2, by decide +kernel, by decide⟩
  have hback : Sample.coupleTree.arena.Refers 2 0 :=
    ⟨.type "Person" (Std.ExtTreeMap.ofList [("Person", 0)]), by decide +kernel, by decide +kernel⟩
  refine ⟨hwell, hwell.cycles 0 [3, 2] ?_⟩
  exact .cons_cons hpart (.cons_cons hspouse (.cons_cons hback (.singleton 0)))

end ChangeTree

end IndexSync
