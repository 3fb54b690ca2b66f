import IndexSync.Proofs.Counting
import IndexSync.Proofs.Tree.Lines
import IndexSync.Proofs.Walk.Expansion

/-!
# Explained trees

The text of a tree comes to an end, and tells all that is in reach of its root.

- `explainAll` — the lines of several nodes, one after another; `explainFrom_again` and
  `explainFrom_told` — those of one node by what it refers to.
- `Arena.Finished` — nothing dangles, nothing is pending, and between landmarks nodes refer to
  earlier ones.
- `Arena.room` — how deep nodes can nest below a node; `exists_tells` — with so much room,
  the lines are those of a run.
- `Layout.Sound.finished` — the arena of a tree is finished.
- `ChangeTree.explain_tells_once` — so its text, from any node, mentions what is in reach, and
  tells each landmark once.
-/

namespace IndexSync

namespace Arena

variable {a : Arena} {table : Option PathTable} {seen seen' : List NodeId}

/-! ## Lines of several nodes -/

/-- The lines of several nodes in order, and what has been seen afterwards. -/
def explainAll (a : Arena) (table : Option PathTable) (depth : Nat) :
    List Reference → List NodeId → List String × List NodeId
  | [], seen => ([], seen)
  | r :: rest, seen =>
    let (lines, seen) := a.explainFrom table depth r.level seen r.node
    let (more, seen) := a.explainAll table depth rest seen
    (r.heading.map lineOf ++ lines ++ more, seen)

theorem foldl_eq_explainAll (a : Arena) (table : Option PathTable) (depth : Nat) {α : Type}
    (f : α → Reference) {step : List String × List NodeId → α → List String × List NodeId}
    (hstep : ∀ found x, step found x =
      (found.1 ++ ((f x).heading.map lineOf ++
          (a.explainFrom table depth (f x).level found.2 (f x).node).1),
        (a.explainFrom table depth (f x).level found.2 (f x).node).2))
    (xs : List α) (lines : List String) (seen : List NodeId) :
    xs.foldl step (lines, seen) =
      (lines ++ (a.explainAll table depth (xs.map f) seen).1,
        (a.explainAll table depth (xs.map f) seen).2) := by
  induction xs generalizing lines seen with
  | nil => simp [explainAll]
  | cons x xs ih =>
      rw [List.foldl_cons, hstep, ih, List.map_cons, explainAll]
      simp

theorem explainFrom_again {depth level : Nat} {id : NodeId} {node : Node}
    (hnode : a.get? id = some node) (hlandmark : node.isLandmark = true) (hseen : id ∈ seen) :
    a.explainFrom table (depth + 1) level seen id =
      ([line level (node.words table id true)], seen) := by
  cases node <;> cases hlandmark <;> simp [explainFrom, hnode, hseen, Node.words]

theorem explainFrom_told {depth level : Nat} {id : NodeId} {node : Node}
    (hnode : a.get? id = some node) (hnew : node.isLandmark = true → id ∉ seen) :
    a.explainFrom table (depth + 1) level seen id =
      (line level (node.words table id false) ::
          (a.explainAll table depth (node.references level) (node.mark id seen)).1,
        (a.explainAll table depth (node.references level) (node.mark id seen)).2) := by
  cases node with
  | type static dispatch =>
      rw [explainFrom]
      simp only [hnode, if_neg (hnew rfl)]
      refine Eq.trans (foldl_eq_explainAll a table depth
        (fun entry => ⟨level + 2, some entry.1, entry.2⟩) ?_ _ _ _) rfl
      exact fun _ _ => rfl
  | union children =>
      rw [explainFrom]
      simp only [hnode, if_neg (hnew rfl)]
      refine Eq.trans (foldl_eq_explainAll a table depth
        (fun nested => ⟨level + 1, none, nested⟩) ?_ _ _ _) rfl
      exact fun _ _ => rfl
  | cast | property | extract | ifDirty | reindex | pending =>
      simp [explainFrom, hnode, Node.words, Node.references, Node.children, Node.mark,
        Node.isLandmark, explainAll, Reference.heading]

/-! ## Room -/

/-- Nothing dangles, nothing is pending, and nodes other than landmarks refer to earlier ones. -/
structure Finished (a : Arena) : Prop where
  closed : ∀ {id : NodeId} {node : Node}, a.get? id = some node →
    ∀ next ∈ node.children, next < a.size
  filled : ∀ {id : NodeId} {node : Node}, a.get? id = some node → node ≠ .pending
  ordered : ∀ {id : NodeId} {node : Node}, a.get? id = some node → node.isLandmark = false →
    ∀ next ∈ node.children, next < id

/-- How many nodes have not been seen. -/
def unseen (a : Arena) (seen : List NodeId) : Nat :=
  (List.range a.size).countP fun id => id ∉ seen

/-- How deep nodes can nest below a node: each landmark that has not been seen is passed once,
and down to the next one each node. -/
def room (a : Arena) (seen : List NodeId) (id : NodeId) : Nat :=
  a.unseen seen * (a.size + 1) + id

theorem room_mono (h : seen ⊆ seen') (id : NodeId) : a.room seen' id ≤ a.room seen id := by
  have hunseen : a.unseen seen' ≤ a.unseen seen :=
    List.countP_mono_left fun k _ hk => by simpa using fun hmem => (of_decide_eq_true hk) (h hmem)
  exact Nat.add_le_add_right (Nat.mul_le_mul_right _ hunseen) id

theorem room_lt (h : a.Finished) {id next : NodeId} {node : Node} (hnode : a.get? id = some node)
    (hnew : node.isLandmark = true → id ∉ seen) (hnext : next ∈ node.children) :
    a.room (node.mark id seen) next < a.room seen id := by
  have hclosed := h.closed hnode next hnext
  cases hlandmark : node.isLandmark with
  | false =>
      rw [Node.mark, hlandmark]
      exact Nat.add_lt_add_left (h.ordered hnode hlandmark next hnext) _
  | true =>
      have hless : a.unseen (id :: seen) < a.unseen seen := by
        refine List.countP_lt_countP (fun k _ hk => ?_)
          (List.mem_range.mpr (lt_size_of_get? hnode)) ?_ ?_
        · simp at hk ⊢
          exact hk.2
        · simp
        · simpa using hnew hlandmark
      have hmul := Nat.mul_le_mul_right (a.size + 1) (Nat.succ_le_of_lt hless)
      rw [Nat.succ_mul] at hmul
      rw [Node.mark, hlandmark, if_pos rfl]
      calc a.room (id :: seen) next
          < a.unseen (id :: seen) * (a.size + 1) + (a.size + 1) :=
            Nat.add_lt_add_left (Nat.lt_succ_of_lt hclosed) _
        _ ≤ a.unseen seen * (a.size + 1) := hmul
        _ ≤ a.room seen id := Nat.le_add_right _ _

theorem unseen_le (a : Arena) (seen : List NodeId) : a.unseen seen ≤ a.size := by
  have hlength : a.unseen seen ≤ (List.range a.size).length := List.countP_le_length
  rwa [List.length_range] at hlength

/-- With enough room, the lines are those of a run. -/
theorem exists_tells (h : a.Finished) {depth : Nat} {ahead : List Reference}
    (hroom : ∀ r ∈ ahead, r.node < a.size ∧ a.room seen r.node < depth) :
    ∃ mentions seen', a.Tells seen ahead mentions seen' ∧
      a.explainAll table depth ahead seen =
        ((mentions.flatMap (a.entries table)).map lineOf, seen') := by
  induction depth generalizing ahead seen with
  | zero =>
      cases ahead with
      | nil => exact ⟨[], seen, .done, rfl⟩
      | cons r rest => exact absurd (hroom r List.mem_cons_self).2 (Nat.not_lt_zero _)
  | succ depth ihd =>
      induction ahead generalizing seen with
      | nil => exact ⟨[], seen, .done, rfl⟩
      | cons r rest ih =>
          obtain ⟨⟨hsize, hfirst⟩, hrest⟩ := List.forall_mem_cons.mp hroom
          obtain ⟨node, hnode⟩ : ∃ node, a.get? r.node = some node :=
            ⟨_, Array.getElem?_eq_getElem hsize⟩
          by_cases hagain : node.isLandmark = true ∧ r.node ∈ seen
          · obtain ⟨mentions, seen', htells, hlines⟩ := ih hrest
            refine ⟨⟨r, true⟩ :: mentions, seen', .again hnode hagain.1 hagain.2 htells, ?_⟩
            simp only [explainAll, explainFrom_again hnode hagain.1 hagain.2, hlines]
            simp [entries, wordsAt, hnode, lineOf]
          · have hnew : node.isLandmark = true → r.node ∉ seen := fun hl hs => hagain ⟨hl, hs⟩
            have hbelow : ∀ r' ∈ node.references r.level,
                r'.node < a.size ∧ a.room (node.mark r.node seen) r'.node < depth := by
              intro r' hr'
              have hchild : r'.node ∈ node.children := by
                rw [← Node.node_references r.level]
                exact List.mem_map_of_mem hr'
              exact ⟨h.closed hnode _ hchild,
                Nat.lt_of_lt_of_le (room_lt h hnode hnew hchild) (Nat.le_of_lt_succ hfirst)⟩
            obtain ⟨mentions, seen₁, htells, hlines⟩ := ihd hbelow
            have hsub : seen ⊆ seen₁ := List.Subset.trans (Node.subset_mark _ _ node) htells.subset
            obtain ⟨mentions', seen₂, htells', hlines'⟩ := ih fun r' hr' =>
              ⟨(hrest r' hr').1, Nat.lt_of_le_of_lt (room_mono hsub _) (hrest r' hr').2⟩
            refine ⟨⟨r, false⟩ :: (mentions ++ mentions'), seen₂,
              .told hnode hnew (htells.append htells'), ?_⟩
            simp only [explainAll, explainFrom_told hnode hnew, hlines, hlines']
            simp [entries, wordsAt, hnode, lineOf]

end Arena

/-! ## Arenas of trees -/

theorem Layout.Sound.finished {schema : Schema} {mapping : Mapping schema} {l : Layout}
    (h : l.Sound mapping []) : l.arena.Finished where
  closed := by
    intro id node hnode next hnext
    rcases h.ordered hnode with ⟨c, hpart⟩ | hlt
    · obtain ⟨children, hplace, hall⟩ := (h.laid hpart nofun).descends
      cases hplace.symm.trans hnode
      exact (hall next hnext).1
    · exact Nat.lt_trans (hlt next hnext) (Arena.lt_size_of_get? hnode)
  filled := by
    rintro id node hnode rfl
    obtain ⟨_, hin, -⟩ := h.pending hnode
    cases hin
  ordered := by
    intro id node hnode hlandmark
    refine (h.ordered hnode).resolve_left ?_
    rintro ⟨c, hpart⟩
    obtain ⟨_, _, _, hplace, -⟩ := h.laid hpart nofun
    cases hplace.symm.trans hnode
    cases hlandmark

namespace Arena

variable {a : Arena}

/-- The text from a node of a finished arena is that of a run, which ends whatever depth is
allowed beyond the room there is. -/
theorem exists_tells_explain (h : a.Finished) {id : NodeId} (hid : id < a.size)
    (table : Option PathTable) :
    ∃ mentions seen, a.Tells [] [⟨0, none, id⟩] mentions seen ∧
      ∀ depth, (a.size + 1) * (a.size + 1) ≤ depth →
        (a.explainFrom table depth 0 [] id).1 =
          (mentions.flatMap (a.entries table)).map lineOf := by
  have hroom : a.room [] id < (a.size + 1) * (a.size + 1) := by
    calc a.room [] id
        ≤ a.size * (a.size + 1) + id :=
          Nat.add_le_add_right (Nat.mul_le_mul_right _ (a.unseen_le [])) id
      _ < a.size * (a.size + 1) + (a.size + 1) := Nat.add_lt_add_left (Nat.lt_succ_of_lt hid) _
      _ = (a.size + 1) * (a.size + 1) := (Nat.succ_mul _ _).symm
  have hrun : ∀ depth, (a.size + 1) * (a.size + 1) ≤ depth → ∃ mentions seen,
      a.Tells [] [⟨0, none, id⟩] mentions seen ∧
        (a.explainFrom table depth 0 [] id).1 =
          (mentions.flatMap (a.entries table)).map lineOf := by
    intro depth hdepth
    have hahead : ∀ r ∈ [(⟨0, none, id⟩ : Reference)],
        r.node < a.size ∧ a.room [] r.node < depth :=
      List.forall_mem_singleton.mpr ⟨hid, Nat.lt_of_lt_of_le hroom hdepth⟩
    obtain ⟨mentions, seen, htells, hlines⟩ := exists_tells h hahead
    refine ⟨mentions, seen, htells, ?_⟩
    simpa [explainAll, Reference.heading] using congrArg Prod.fst hlines
  obtain ⟨mentions, seen, htells, -⟩ := hrun _ (Nat.le_refl _)
  refine ⟨mentions, seen, htells, fun depth hdepth => ?_⟩
  obtain ⟨mentions', seen', htells', hlines⟩ := hrun depth hdepth
  obtain ⟨rfl, -⟩ := htells.functional htells'
  exact hlines

/-- Every landmark in reach has one line that tells it, and one for each further mention. -/
theorem Tells.count_lines {root : Reference} {mentions : List Mention} {seen : List NodeId}
    (h : a.Tells [] [root] mentions seen) (table : Option PathTable) {k : NodeId} {node : Node}
    (hreach : a.Reaches root.node k) (hnode : a.get? k = some node)
    (hlandmark : node.isLandmark = true) :
    ((mentions.flatMap (a.entries table)).map (·.2)).count (node.words table k false) = 1 ∧
      ((mentions.flatMap (a.entries table)).map (·.2)).count (node.words table k true) + 1 =
        mentions.countP fun m => m.node = k := by
  obtain ⟨m, hm, rfl⟩ := (h.mentioned_iff k).mpr hreach
  have htold := h.count_told hm hnode hlandmark
  have hsplit := countP_node mentions m.node
  rw [h.count_words hnode hlandmark, h.count_words hnode hlandmark, htold]
  rw [htold, Nat.add_comm] at hsplit
  exact ⟨rfl, hsplit⟩

/-- No line says that a node dangles, or is pending. -/
theorem Tells.head_ne {ahead : List Reference} {mentions : List Mention} {seen seen' : List NodeId}
    (h : a.Tells seen ahead mentions seen') (ha : a.Finished) (table : Option PathTable) :
    ∀ text ∈ (mentions.flatMap (a.entries table)).map (·.2), text.toList.head? ≠ some '<' := by
  intro text htext
  rw [List.map_flatMap] at htext
  obtain ⟨m, hm, htext⟩ := List.mem_flatMap.mp htext
  obtain ⟨node, hnode, -⟩ := h.of_mem hm
  rw [entries, List.map_append, List.mem_append] at htext
  rcases htext with htext | htext
  · rw [head_heading m.toReference _ htext]
    simp
  · cases List.mem_singleton.mp htext
    simp only [wordsAt, hnode]
    exact head_words_ne table (ha.filled hnode) _ _

end Arena

namespace ChangeTree

variable {defs : List TypeDef} {schema : Schema} {ds : Declarations} {mapping : Mapping schema}
  {filtering : Bool} {type : TypeName} {tree : ChangeTree}

/-- The text of a tree, from whatever node, comes to an end.  It mentions the nodes in reach and no
others.  Each `type` and each `union` node among them has one line that tells it with its place,
and each further mention of it is one line that points there.  Nothing dangles and nothing is
pending. -/
theorem explain_tells_once (hschema : Schema.ofDefinitions defs = .ok schema)
    (hcompile : Mapping.compile schema ds = .ok mapping)
    (hbuild : ChangeTree.build mapping filtering type = .ok tree) {id : NodeId}
    (hid : id < tree.arena.size) (table : Option PathTable) :
    ∃ mentions seen,
      let lines := mentions.flatMap (tree.arena.entries table)
      let texts := lines.map (·.2)
      tree.arena.Tells [] [⟨0, none, id⟩] mentions seen ∧
      (∀ depth, (tree.arena.size + 1) * (tree.arena.size + 1) ≤ depth →
        (tree.arena.explainFrom table depth 0 [] id).1 = lines.map Arena.lineOf) ∧
      tree.arena.explain table id = String.join (lines.map Arena.lineOf) ∧
      (∀ k, (∃ m ∈ mentions, m.node = k) ↔ tree.arena.Reaches id k) ∧
      (∀ k static dispatch, tree.arena.Reaches id k →
        tree.arena.get? k = some (.type static dispatch) →
        texts.count ("type " ++ static ++ " [" ++ nodeLabel k ++ "]") = 1 ∧
        texts.count ("type " ++ static ++ " (see " ++ nodeLabel k ++ ")") + 1 =
          mentions.countP fun m => m.node = k) ∧
      (∀ k children, tree.arena.Reaches id k → tree.arena.get? k = some (.union children) →
        texts.count ("union [" ++ nodeLabel k ++ "]") = 1 ∧
        texts.count ("union (see " ++ nodeLabel k ++ ")") + 1 =
          mentions.countP fun m => m.node = k) ∧
      ∀ k, "<dangling " ++ nodeLabel k ++ ">" ∉ texts ∧
        "<placeholder " ++ nodeLabel k ++ ">" ∉ texts := by
  have hm := Schema.coherent_of_accepted hschema
  have hclosed := Mapping.closed_of_compile hm hcompile
  obtain ⟨l, hbuilt⟩ := ChangeTree.built_of_build hclosed.bounded hbuild
  have hfinished : tree.arena.Finished := hbuilt.arena ▸ hbuilt.sound.finished
  obtain ⟨mentions, seen, htells, hlines⟩ := Arena.exists_tells_explain hfinished hid table
  refine ⟨mentions, seen, htells, hlines, ?_, htells.mentioned_iff, ?_, ?_, ?_⟩
  · exact congrArg String.join (hlines _ (Nat.le_refl _))
  · exact fun k static dispatch hreach hnode => htells.count_lines table hreach hnode rfl
  · exact fun k children hreach hnode => htells.count_lines table hreach hnode rfl
  · have hhead := htells.head_ne hfinished table
    refine fun k => ⟨fun hmem => hhead _ hmem ?_, fun hmem => hhead _ hmem ?_⟩ <;> simp

/-- The document part of a person leads back to itself. -/
theorem explain_tells_once_couple :
    let a := Sample.coupleTree.arena
    ∃ mentions seen,
      let lines := mentions.flatMap (a.entries none)
      a.Tells [] [⟨0, none, 0⟩] mentions seen ∧
      a.explain none 0 = String.join (lines.map Arena.lineOf) ∧
      (lines.map (·.2)).count "union [n0]" = 1 ∧
      (lines.map (·.2)).count "union (see n0)" + 1 = mentions.countP fun m => m.node = 0 := by
  have hsize : 0 < Sample.coupleTree.arena.size := by decide +kernel
  obtain ⟨mentions, seen, htells, -, htext, -, -, hunion, -⟩ := explain_tells_once
    (Except.eq_ok_value _) Sample.compile_couple (Except.eq_ok_value _) hsize none
  exact ⟨mentions, seen, htells, htext, hunion 0 [1, 3] .refl (by decide +kernel)⟩

end ChangeTree

end IndexSync
