import IndexSync.Proofs.Tree.Meaning
import IndexSync.Proofs.Mapping.Closure

/-!
# What document parts find

The part of an object finds the indexed objects that embed it, directly or through
others.

- `Mapping.Embeds` — one object is embedded by another one along an edge.
- `Layout.partComesTo_mark`, `Layout.partComesTo_move` — from the part of an object the
  walk comes to its mark, and makes the moves of the edges from it.
- `Layout.partComesTo_of_embeds` — it comes on to the parts of all that embed the object.
- `Layout.part_trace` — wherever a walk through a part is, it is in the part of an
  object that embeds the first one.
-/

namespace IndexSync

open Relation (ReflTransGen)

variable {schema : Schema} {mapping : Mapping schema}

/-- An edge leads from `x` to `y`: the document part of `y` embeds that of `x`. -/
def Mapping.Embeds (mapping : Mapping schema) (s : ObjectStore schema) (x y : ObjectId) : Prop :=
  ∃ e ∈ mapping.embeddings, s.IsA x e.target ∧ chainLeads s e.chain x y

/-- Objects of an indexed type have a document. -/
def Mapping.HasDocument (mapping : Mapping schema) (s : ObjectStore schema) (x : ObjectId) : Prop :=
  ∃ c, s.runtimeType x = .ok c ∧ mapping.isIndexed c = true

theorem leadsToPart_iff {documents : List TypeName} {type : TypeName} :
    leadsToPart schema documents type = true ↔
      ∃ c ∈ schema.concretesUnder type, c ∈ documents := by
  simp [leadsToPart]

/-- A type of objects with a part leads to a part. -/
theorem leadsToPart_of_isA (hm : schema.Coherent) {s : ObjectStore schema} {x : ObjectId}
    {c type : TypeName} (hc : s.runtimeType x = .ok c) (hpart : mapping.hasPart c = true)
    (hx : s.IsA x type) : leadsToPart schema mapping.documents type = true := by
  obtain ⟨c', hc', hfits⟩ := hx
  cases hc.symm.trans hc'
  have hunder : c ∈ schema.concretesUnder type :=
    hm.mem_concretesUnder_iff.mpr ⟨s.isConcrete_of_runtimeType hc, hfits⟩
  exact leadsToPart_iff.mpr ⟨c, hunder, of_decide_eq_true hpart⟩

/-- Objects that an edge leads to are of the type that it lands on. -/
theorem Mapping.Closed.isA_landing (hclosed : mapping.Closed) {s : ObjectStore schema}
    {x y : ObjectId} {e : Embedding} (he : e ∈ mapping.embeddings) (hempty : e.chain ≠ [])
    (hx : s.IsA x e.target) (hlead : chainLeads s e.chain x y) : s.IsA y e.landing := by
  obtain ⟨root, hland⟩ := hclosed.landing he
  rw [hland, chainEnd_congr hempty root e.target]
  exact isA_chainEnd hx hlead

/-- An object has a part if one that embeds it does. -/
theorem Mapping.Closed.hasPart_of_edge (hclosed : mapping.Closed) (hm : schema.Coherent)
    {s : ObjectStore schema} {x y : ObjectId} {c d : TypeName} {e : Embedding}
    (he : e ∈ mapping.embeddings) (hx : s.runtimeType x = .ok c)
    (hfits : schema.fits c e.target = true) (hlead : chainLeads s e.chain x y)
    (hy : s.runtimeType y = .ok d) (hpart : mapping.hasPart d = true) :
    mapping.hasPart c = true := by
  by_cases hempty : e.chain = []
  · rw [hempty] at hlead
    cases hlead
    cases hx.symm.trans hy
    exact hpart
  · have hland := hclosed.isA_landing he hempty ⟨c, hx, hfits⟩ hlead
    exact hclosed.embedded he (leadsToPart_of_isA hm hy hpart hland)
      (s.isConcrete_of_runtimeType hx) hfits

/-- Edges whose moves a tree has nodes for lead to a part. -/
theorem Mapping.Closed.leadsToPart_of_viable (hclosed : mapping.Closed) {e : Embedding}
    (he : e ∈ mapping.embeddings) {before rest : List Move} (hmoves : e.moves = before ++ rest)
    (hviable : mapping.Viable rest) : leadsToPart schema mapping.documents e.landing = true := by
  obtain ⟨between, type, rfl, c, hc, hpart⟩ := hviable.exists_land
  have hempty : e.chain ≠ [] := by
    intro hempty
    rw [Embedding.moves, hempty] at hmoves
    simp [chainMoves] at hmoves
  obtain ⟨root, hland⟩ := hclosed.landing he
  obtain ⟨links, hlinks⟩ := exists_land_at_chainEnd hempty root
  rw [Embedding.moves, hlinks, ← hland, ← List.append_assoc] at hmoves
  obtain ⟨-, hlast⟩ := List.append_inj' hmoves rfl
  cases hlast
  exact leadsToPart_iff.mpr ⟨c, hc, of_decide_eq_true hpart⟩

theorem Mapping.Embeds.isLive {s : ObjectStore schema} {x y : ObjectId}
    (h : mapping.Embeds s x y) : ∃ c, s.runtimeType y = .ok c := by
  obtain ⟨e, -, hx, hchain⟩ := h
  obtain ⟨c, hc, -⟩ := isA_chainEnd hx hchain
  exact ⟨c, hc⟩

/-- The moves of the edges that apply to an object. -/
def Mapping.edgeMoves (mapping : Mapping schema) (s : ObjectStore schema) (x : ObjectId) :
    List Move → Prop :=
  fun ms => ∃ e ∈ mapping.embeddings, s.IsA x e.target ∧ ms = e.moves

/-- A place within the part of an object, before any embedding one. -/
def Walk.AtPart (w : Walk schema) (mapping : Mapping schema) (x : ObjectId) (q : Place) : Prop :=
  w.Transits q.1 ∨
    (∃ move, mapping.Attempts w.store (mapping.edgeMoves w.store x) (mapping.edgeMoves w.store x)
      (.ref x) move q.2.toValue ∧ w.MakesMove q.1 move) ∨
    mapping.HasDocument w.store x ∧ q.2 = .object x ∧ w.arena.get? q.1 = some .reindex

/-- What is found within the part of an object is its reference. -/
theorem Walk.AtPart.found {w : Walk schema} {x : ObjectId} {id : NodeId} {f : Footing}
    (h : w.AtPart mapping x (id, f)) (hid : w.arena.get? id = some .reindex) {r : EntityRef}
    (hfind : w.Finds (id, f) r) :
    mapping.HasDocument w.store x ∧ w.store.reference x = .ok r := by
  rcases h with htransit | ⟨_, -, hmake⟩ | ⟨hdoc, hf, -⟩
  · exact absurd hid htransit.ne_reindex
  · exact absurd hid hmake.ne_reindex
  · obtain ⟨y, hy, href⟩ := (Walk.finds_reindex hid).mp hfind
    cases hf
    cases hy
    exact ⟨hdoc, href⟩

namespace Layout

/-! ## The edges from a type -/

/-- The sequences of the edges from a type, with no ordinals. -/
def edgeSequences (mapping : Mapping schema) (c : TypeName) : SequenceSet :=
  fun ms bits => bits = .empty ∧
    ∃ e ∈ mapping.embeddings, schema.fits c e.target = true ∧ ms = e.moves

theorem merges_embeddingTrie (mapping : Mapping schema) (c : TypeName) :
    (embeddingTrie mapping c).Merges (edgeSequences mapping c) := by
  refine (Trie.merges_ofSequences _).congr fun ms bits => ?_
  simp only [Mapping.embeddingMoves, edgeSequences, List.mem_map, List.mem_filter, Prod.mk.injEq]
  constructor
  · rintro ⟨_, ⟨e, ⟨he, hfits⟩, rfl⟩, rfl, rfl⟩
    exact ⟨rfl, e, he, hfits, rfl⟩
  · rintro ⟨rfl, e, he, hfits, rfl⟩
    exact ⟨_, ⟨e, ⟨he, hfits⟩, rfl⟩, rfl, rfl⟩

variable {w : Walk schema} {l : Layout} {x : ObjectId} {c : TypeName}

theorem moves_edgeSequences (hx : w.store.runtimeType x = .ok c) :
    (edgeSequences mapping c).moves = mapping.edgeMoves w.store x := by
  funext ms
  refine propext ⟨?_, ?_⟩
  · rintro ⟨_, -, e, he, hfits, rfl⟩
    exact ⟨e, he, ⟨c, hx, hfits⟩, rfl⟩
  · rintro ⟨e, he, ⟨c', hc', hfits⟩, rfl⟩
    cases hc'.symm.trans hx
    exact ⟨.empty, rfl, e, he, hfits, rfl⟩

/-- No filter keeps a walk out of what embeds an object. -/
theorem hits_edgeSequences (hx : w.store.runtimeType x = .ok c) :
    w.hits .never (edgeSequences mapping c) = mapping.edgeMoves w.store x := by
  rw [← moves_edgeSequences hx]
  funext ms
  refine propext ⟨?_, ?_⟩
  · rintro ⟨bits, hms, -⟩
    exact ⟨bits, hms⟩
  · rintro ⟨bits, hms⟩
    exact ⟨bits, hms, .inl rfl⟩

/-! ## Completeness -/

section

variable {P : Place → Prop}

/-- Every type that matters has its part, once it has been met. -/
theorem partComesTo_of_place (hsound : l.Sound mapping []) (hhas : mapping.hasPart c = true)
    (h : ∀ place, l.Part mapping c place → w.ComesTo (place, .object x) P) :
    l.PartComesTo w c x P := by
  intro part hpart
  cases part with
  | none => exact absurd (hhas.symm.trans (hsound.absent hpart)) nofun
  | some place => exact ⟨place, rfl, h place (hsound.laid hpart (by simp))⟩

variable (hw : w.arena = l.arena) (hsound : l.Sound mapping [])
include hw hsound

/-- The part of an object with a document comes to its mark. -/
theorem partComesTo_mark (hclosed : mapping.Closed) (hx : w.store.runtimeType x = .ok c)
    (hdoc : mapping.HasDocument w.store x) :
    mapping.hasPart c = true ∧
      l.PartComesTo w c x fun q => w.arena.get? q.1 = some .reindex ∧ q.2.toValue = .ref x := by
  obtain ⟨c', hc', hindexed⟩ := hdoc
  cases hc'.symm.trans hx
  have hhas := hclosed.indexed hindexed
  refine ⟨hhas, partComesTo_of_place hsound hhas ?_⟩
  rintro place ⟨mark, ends, embedding, hplace, hmark, -⟩
  rw [Marks, if_pos hindexed] at hmark
  obtain ⟨id, rfl, hid⟩ := hmark
  rw [← hw] at hplace hid
  have hlead : w.Leads (place, .object x) (id, .object x) :=
    (Walk.leads_union hplace).mpr ⟨id, by simp, rfl⟩
  exact .head (.here ⟨hid, rfl⟩) hlead

/-- The part of an object comes to wherever what is laid out for the edges does. -/
theorem partComesTo_of_branches (hhas : mapping.hasPart c = true)
    (h : ∀ ids, l.Branches schema .never (embeddingTrie mapping c).branches ids →
      ∃ id ∈ ids, w.ComesTo (id, .object x) P) : l.PartComesTo w c x P := by
  refine partComesTo_of_place hsound hhas ?_
  rintro place ⟨mark, ends, embedding, hplace, -, hends, hjoin⟩
  obtain ⟨id, hid, hr⟩ := h ends hends
  obtain ⟨k, rfl, hk⟩ := hjoin.comesTo hw hid hr
  rw [← hw] at hplace
  have hlead : w.Leads (place, .object x) (k, .object x) :=
    (Walk.leads_union hplace).mpr ⟨k, by simp, rfl⟩
  exact hk.head hlead

variable (hm : schema.Coherent)
include hm

/-- The part of an object makes the moves of the edges from it. -/
theorem partComesTo_move (hclosed : mapping.Closed) (hx : w.store.runtimeType x = .ok c)
    {move : Move} {v : Value}
    (h : mapping.Attempts w.store (mapping.edgeMoves w.store x) (mapping.edgeMoves w.store x)
      (.ref x) move v) :
    mapping.hasPart c = true ∧
      l.PartComesTo w c x fun q => q.2.toValue = v ∧ w.MakesMove q.1 move := by
  have hhas : mapping.hasPart c = true := by
    obtain ⟨before, -, ⟨rest, ⟨e, he, ⟨c', hc', hfits⟩, hmoves⟩, hviable⟩, -⟩ := h
    cases hc'.symm.trans hx
    have hlead := hclosed.leadsToPart_of_viable he hmoves.symm hviable
    exact hclosed.embedded he hlead (w.store.isConcrete_of_runtimeType hx) hfits
  refine ⟨hhas, partComesTo_of_branches hw hsound hhas fun ids hids => ?_⟩
  refine hids.comesTo_move hw hm hsound (f := .object x) (merges_embeddingTrie mapping c) ?_
  rw [hits_edgeSequences hx, moves_edgeSequences hx]
  exact h

theorem partComesTo_of_edge {y : ObjectId} {d : TypeName} {e : Embedding}
    (he : e ∈ mapping.embeddings) (hx : w.store.runtimeType x = .ok c)
    (hfits : schema.fits c e.target = true) (hhas : mapping.hasPart c = true)
    (hlead : chainLeads w.store e.chain x y) (hy : w.store.runtimeType y = .ok d)
    (hpart : l.PartComesTo w d y P) : l.PartComesTo w c x P := by
  by_cases hempty : e.chain = []
  · rw [hempty] at hlead
    cases hlead
    cases hx.symm.trans hy
    exact hpart
  · have hland := exists_land_of_chain hempty
    have hmoves : movesLead w.store (chainMoves e.chain) (.ref x) (.ref y) :=
      movesLead_chainMoves_iff.mpr ⟨y, rfl, hlead⟩
    have hedge : edgeSequences mapping c (chainMoves e.chain) .empty := ⟨rfl, e, he, hfits, rfl⟩
    refine partComesTo_of_branches hw hsound hhas fun ids hids => ?_
    generalize chainMoves e.chain = ms at hland hmoves hedge
    cases ms with
    | nil => simp at hland
    | cons move ms =>
        obtain ⟨relevance, next, hmem, -, hnext⟩ :=
          (merges_embeddingTrie mapping c).exists_branch hedge
        refine hids.comesTo hw hmem (.inl rfl) fun id? hbranch => ?_
        exact hbranch.comesTo_part hw hm hy hpart hnext ⟨_, hedge, .inl rfl⟩ hmoves hland

/-- From the part of an object the walk comes on to the parts of all that embed it. -/
theorem partComesTo_of_embeds (hclosed : mapping.Closed) {y : ObjectId} {d : TypeName}
    (h : ReflTransGen (mapping.Embeds w.store) x y) (hy : w.store.runtimeType y = .ok d)
    (hpart : mapping.hasPart d = true ∧ l.PartComesTo w d y P)
    (hx : w.store.runtimeType x = .ok c) : mapping.hasPart c = true ∧ l.PartComesTo w c x P := by
  -- from the first object on, as each part goes on to those that embed its object
  induction h using ReflTransGen.head_induction_on generalizing c with
  | refl =>
      cases hx.symm.trans hy
      exact hpart
  | @head x z hxz _ ih =>
      obtain ⟨b, hz⟩ := hxz.isLive
      obtain ⟨e, he, ⟨c', hc', hfits⟩, hlead⟩ := hxz
      cases hc'.symm.trans hx
      have hhas := hclosed.hasPart_of_edge hm he hx hfits hlead hz (ih hz).1
      exact ⟨hhas, partComesTo_of_edge hw hsound hm he hx hfits hhas hlead hz (ih hz).2⟩

end

/-! ## Soundness -/

/-- Wherever a walk through a part is, it is in the part of an object that embeds
the first one. -/
theorem part_trace (hw : w.arena = l.arena) (hsound : l.Sound mapping []) (hm : schema.Coherent)
    {n : Nat} {place : NodeId} {q : Place} (hx : w.store.runtimeType x = .ok c)
    (hplace : l.parts[c]? = some (some place)) (hreach : w.Reaches n (place, .object x) q) :
    ∃ y, ReflTransGen (mapping.Embeds w.store) x y ∧ w.AtPart mapping y q := by
  -- on the steps left, as the parts may lead back to one another
  induction n using Nat.strongRecOn generalizing x c place with
  | ind n ih =>
      obtain ⟨mark, ends, embedding, hunion, hmark, hends, hjoin⟩ := hsound.laid hplace (by simp)
      rw [← hw] at hunion
      cases hreach with
      | refl => exact ⟨x, .refl, .inl (.inl ⟨_, hunion⟩)⟩
      | @head k _ _ _ hlead hrest =>
          obtain ⟨child, hchild, rfl⟩ := (Walk.leads_union hunion).mp hlead
          rcases List.mem_append.mp hchild with hchild | hchild
          · obtain ⟨hindexed, hid⟩ := hmark.of_mem hchild
            rw [← hw] at hid
            -- nothing comes after a mark
            cases hrest with
            | refl => exact ⟨x, .refl, .inr (.inr ⟨⟨c, hx, hindexed⟩, rfl, hid⟩)⟩
            | head hlead' => exact absurd hlead' (Walk.not_leads_reindex hid)
          · cases Option.mem_toList.mp hchild
            have htraces := traces hw hm hsound (merges_embeddingTrie mapping c)
            rcases hends.trace_continuation hw htraces trivial hjoin hrest with hinside | h
            · rw [Walk.Inside, hits_edgeSequences hx, moves_edgeSequences hx] at hinside
              exact ⟨x, .refl, hinside.imp_right .inl⟩
            · obtain ⟨ms, y, d, place', k', hhit, hmoves, hy, hplace', hle, hreach'⟩ := h
              rw [hits_edgeSequences hx] at hhit
              obtain ⟨e, he, hfits, rfl⟩ := hhit
              obtain ⟨y', heq, hchain⟩ := movesLead_chainMoves_iff.mp hmoves
              cases heq
              have hembeds : mapping.Embeds w.store x y := ⟨e, he, hfits, hchain⟩
              obtain ⟨z, hyz, hz⟩ := ih k' (Nat.lt_succ_of_le hle) hy hplace' hreach'
              exact ⟨z, .head hembeds hyz, hz⟩

end Layout

end IndexSync
