import Mathlib.Data.List.Nodup
import Mathlib.Logic.Relation
import IndexSync.ChangeTree.Text

/-!
# What a text of a tree tells

A text mentions nodes one after another, each with the nodes that it refers to right behind it;
`type` and `union` nodes that have been told before are only pointed at.

- `Reference`, `Mention` — a node that is still to be told, and one that has been.
- `Arena.Tells` — from the references ahead to the mentions, without a bound; the order is that
  of the text.
- `Tells.mentioned_perm` — what is mentioned is what was ahead, and what the nodes told refer to.
- `Tells.count_told` — no landmark is told twice; `Tells.mentioned_iff` — everything in reach is
  mentioned, and nothing else.
-/

namespace IndexSync

/-! ## Nodes and their places -/

/-- A node to be told below so many levels, for objects of one concrete type only if it is
referred to as their case. -/
structure Reference where
  level : Nat
  concrete : Option TypeName
  node : NodeId
deriving DecidableEq

/-- A node that is told where it is referred to, or only pointed at. -/
structure Mention extends Reference where
  again : Bool
deriving DecidableEq

namespace Node

/-- Nodes that are told with their place, once. -/
def isLandmark : Node → Bool
  | type _ _ | union _ => true
  | cast _ _ | property _ _ | extract _ _ | ifDirty _ _ | reindex | pending => false

/-- What a node refers to, and where that is told. -/
def references (level : Nat) : Node → List Reference
  | type _ dispatch => dispatch.toList.map fun entry => ⟨level + 2, some entry.1, entry.2⟩
  | node => node.children.map fun id => ⟨level + 1, none, id⟩

theorem node_references (level : Nat) (node : Node) :
    (node.references level).map (·.node) = node.children := by
  cases node <;> simp [references, children, SortedMap.contents, Function.comp_def]

/-- What has been seen, once the node has been told. -/
def mark (id : NodeId) (seen : List NodeId) (node : Node) : List NodeId :=
  if node.isLandmark then id :: seen else seen

theorem subset_mark (id : NodeId) (seen : List NodeId) (node : Node) :
    seen ⊆ node.mark id seen := by
  unfold mark
  split
  · exact List.subset_cons_self _ _
  · exact List.Subset.refl _

end Node

namespace Arena

variable {a : Arena} {seen seen' seen'' : List NodeId} {ahead ahead' : List Reference}
  {mentions mentions' : List Mention}

/-! ## Runs -/

/-- Telling the nodes `ahead` in order, each followed by those that it refers to, makes these
mentions. -/
inductive Tells (a : Arena) :
    List NodeId → List Reference → List Mention → List NodeId → Prop
  | done {seen : List NodeId} : Tells a seen [] [] seen
  | again {seen seen' : List NodeId} {r : Reference} {ahead : List Reference}
      {mentions : List Mention} {node : Node} (hnode : a.get? r.node = some node)
      (hlandmark : node.isLandmark = true) (hseen : r.node ∈ seen)
      (h : Tells a seen ahead mentions seen') :
      Tells a seen (r :: ahead) (⟨r, true⟩ :: mentions) seen'
  | told {seen seen' : List NodeId} {r : Reference} {ahead : List Reference}
      {mentions : List Mention} {node : Node} (hnode : a.get? r.node = some node)
      (hnew : node.isLandmark = true → r.node ∉ seen)
      (h : Tells a (node.mark r.node seen) (node.references r.level ++ ahead) mentions seen') :
      Tells a seen (r :: ahead) (⟨r, false⟩ :: mentions) seen'

theorem Tells.append (h : Tells a seen ahead mentions seen')
    (h' : Tells a seen' ahead' mentions' seen'') :
    Tells a seen (ahead ++ ahead') (mentions ++ mentions') seen'' := by
  induction h with
  | done => exact h'
  | again hnode hlandmark hseen _ ih => exact .again hnode hlandmark hseen (ih h')
  | told hnode hnew _ ih =>
      refine .told hnode hnew ?_
      have hrest := ih h'
      rwa [List.append_assoc] at hrest

/-- There is one way to go on. -/
theorem Tells.functional (h : Tells a seen ahead mentions seen')
    (h' : Tells a seen ahead mentions' seen'') : mentions = mentions' ∧ seen' = seen'' := by
  induction h generalizing mentions' with
  | done =>
      cases h'
      exact ⟨rfl, rfl⟩
  | again hnode hlandmark hseen _ ih =>
      cases h' with
      | again _ _ _ h' =>
          obtain ⟨rfl, rfl⟩ := ih h'
          exact ⟨rfl, rfl⟩
      | told hnode' hnew =>
          cases hnode.symm.trans hnode'
          exact absurd hseen (hnew hlandmark)
  | told hnode hnew _ ih =>
      cases h' with
      | again hnode' hlandmark hseen =>
          cases hnode.symm.trans hnode'
          exact absurd hseen (hnew hlandmark)
      | told hnode' _ h' =>
          cases hnode.symm.trans hnode'
          obtain ⟨rfl, rfl⟩ := ih h'
          exact ⟨rfl, rfl⟩

theorem Tells.subset (h : Tells a seen ahead mentions seen') : seen ⊆ seen' := by
  induction h with
  | done => exact List.Subset.refl _
  | again _ _ _ _ ih => exact ih
  | told _ _ _ ih => exact List.Subset.trans (Node.subset_mark _ _ _) ih

/-- Nothing dangles; only landmarks are pointed at, and they have been seen. -/
theorem Tells.of_mem (h : Tells a seen ahead mentions seen') {m : Mention} (hm : m ∈ mentions) :
    ∃ node, a.get? m.node = some node ∧
      (m.again = true → node.isLandmark = true ∧ m.node ∈ seen') := by
  induction h with
  | done => cases hm
  | again hnode hlandmark hseen h ih =>
      rcases List.mem_cons.mp hm with rfl | hm
      · exact ⟨_, hnode, fun _ => ⟨hlandmark, h.subset hseen⟩⟩
      · exact ih hm
  | told hnode _ _ ih =>
      rcases List.mem_cons.mp hm with rfl | hm
      · exact ⟨_, hnode, nofun⟩
      · exact ih hm

/-! ## What is mentioned -/

/-- What is told right behind a mention. -/
def behind (a : Arena) (m : Mention) : List Reference :=
  if m.again then []
  else match a.get? m.node with
    | some node => node.references m.level
    | none => []

/-- All that is mentioned was ahead, or is referred to by a node that is told; and all of that is
mentioned, as often as it is referred to. -/
theorem Tells.mentioned_perm (h : Tells a seen ahead mentions seen') :
    (mentions.map (·.toReference)).Perm (ahead ++ mentions.flatMap a.behind) := by
  induction h with
  | done => exact .refl _
  | again _ _ _ _ ih =>
      rw [List.map_cons, List.flatMap_cons, behind, if_pos rfl]
      exact ih.cons _
  | @told _ _ r ahead mentions node hnode _ _ ih =>
      have hbehind : a.behind ⟨r, false⟩ = node.references r.level := by
        simp [behind, hnode]
      rw [List.map_cons, List.flatMap_cons, hbehind, List.cons_append]
      refine .cons _ (ih.trans ?_)
      rw [List.append_assoc, ← List.append_assoc ahead, List.append_assoc]
      exact List.perm_append_comm_assoc _ _ _

/-- Telling a landmark makes it seen. -/
theorem Tells.count_seen (h : Tells a seen ahead mentions seen') {k : NodeId} {node : Node}
    (hnode : a.get? k = some node) (hlandmark : node.isLandmark = true) :
    seen'.count k =
      seen.count k + mentions.countP fun m => m.node = k ∧ m.again = false := by
  induction h with
  | done => rfl
  | again _ _ _ _ ih => simpa using ih
  | @told seen _ r _ _ node' hnode' _ _ ih =>
      rw [ih, List.countP_cons, Node.mark]
      by_cases hk : r.node = k
      · cases (hk ▸ hnode').symm.trans hnode
        simp [hlandmark, hk]
        omega
      · split <;> simp [hk]

theorem Tells.nodup (h : Tells a seen ahead mentions seen') (hseen : seen.Nodup) :
    seen'.Nodup := by
  induction h with
  | done => exact hseen
  | again _ _ _ _ ih => exact ih hseen
  | told _ hnew _ ih =>
      apply ih
      unfold Node.mark
      split
      · rename_i hlandmark
        exact List.nodup_cons.mpr ⟨hnew hlandmark, hseen⟩
      · exact hseen

/-- A landmark that is mentioned is told once, and pointed at wherever else it is mentioned. -/
theorem Tells.count_told (h : Tells a [] ahead mentions seen') {m : Mention} {node : Node}
    (hm : m ∈ mentions) (hnode : a.get? m.node = some node) (hlandmark : node.isLandmark = true) :
    (mentions.countP fun m' => m'.node = m.node ∧ m'.again = false) = 1 := by
  have hcount := h.count_seen hnode hlandmark
  rw [List.count_nil, Nat.zero_add] at hcount
  have hseen : m.node ∈ seen' := by
    cases hagain : m.again with
    | false =>
        rw [← List.count_pos_iff, hcount]
        exact List.countP_pos_iff.mpr ⟨m, hm, by simp [hagain]⟩
    | true =>
        obtain ⟨_, _, hseen⟩ := h.of_mem hm
        exact (hseen hagain).2
  rw [← hcount, List.count_eq_one_of_mem (h.nodup .nil) hseen]

/-- A node is mentioned where it is told and where it is pointed at. -/
theorem countP_node (mentions : List Mention) (k : NodeId) :
    ((mentions.countP fun m => m.node = k ∧ m.again = false) +
        mentions.countP fun m => m.node = k ∧ m.again = true) =
      mentions.countP fun m => m.node = k := by
  induction mentions with
  | nil => rfl
  | cons m mentions ih =>
      simp only [List.countP_cons, ← ih]
      cases m.again <;> by_cases hk : m.node = k <;> simp [hk] <;> omega

/-- Each node that is mentioned is told somewhere. -/
theorem Tells.exists_told (h : Tells a [] ahead mentions seen') {m : Mention} (hm : m ∈ mentions) :
    ∃ m' ∈ mentions, m'.node = m.node ∧ m'.again = false := by
  obtain ⟨node, hnode, hagain⟩ := h.of_mem hm
  cases hm' : m.again with
  | false => exact ⟨m, hm, rfl, hm'⟩
  | true =>
      have hcount := h.count_told hm hnode (hagain hm').1
      have hpos := hcount ▸ Nat.one_pos
      obtain ⟨m', hmem, htold⟩ := List.countP_pos_iff.mp hpos
      exact ⟨m', hmem, of_decide_eq_true htold⟩

/-- One node refers to the other. -/
def Refers (a : Arena) (id next : NodeId) : Prop :=
  ∃ node, a.get? id = some node ∧ next ∈ node.children

/-- One can get from the first node to the second. -/
def Reaches (a : Arena) : NodeId → NodeId → Prop :=
  Relation.ReflTransGen a.Refers

theorem mem_behind_iff {m : Mention} (hm : m.again = false) {id : NodeId} :
    (∃ r ∈ a.behind m, r.node = id) ↔ a.Refers m.node id := by
  rw [behind, if_neg (by simp [hm])]
  cases hnode : a.get? m.node with
  | none => simp [Refers, hnode]
  | some node => simp [Refers, hnode, ← Node.node_references m.level node]

theorem Tells.reaches {root : NodeId} (h : Tells a seen ahead mentions seen')
    (hahead : ∀ r ∈ ahead, a.Reaches root r.node) : ∀ m ∈ mentions, a.Reaches root m.node := by
  induction h with
  | done => nofun
  | again _ _ _ _ ih =>
      obtain ⟨hfirst, hrest⟩ := List.forall_mem_cons.mp hahead
      exact List.forall_mem_cons.mpr ⟨hfirst, ih hrest⟩
  | @told _ _ r _ _ node hnode _ _ ih =>
      obtain ⟨hfirst, hrest⟩ := List.forall_mem_cons.mp hahead
      refine List.forall_mem_cons.mpr ⟨hfirst, ih fun r' hr' => ?_⟩
      rcases List.mem_append.mp hr' with hr' | hr'
      · refine hfirst.tail ⟨node, hnode, ?_⟩
        rw [← Node.node_references r.level]
        exact List.mem_map_of_mem hr'
      · exact hrest r' hr'

/-- What is mentioned is what is in reach. -/
theorem Tells.mentioned_iff {root : Reference} (h : Tells a [] [root] mentions seen')
    (k : NodeId) : (∃ m ∈ mentions, m.node = k) ↔ a.Reaches root.node k := by
  have hmention : ∀ r ∈ [root] ++ mentions.flatMap a.behind, ∃ m ∈ mentions, m.node = r.node := by
    intro r hr
    obtain ⟨m, hm, rfl⟩ := List.mem_map.mp (h.mentioned_perm.mem_iff.mpr hr)
    exact ⟨m, hm, rfl⟩
  constructor
  · rintro ⟨m, hm, rfl⟩
    exact h.reaches (List.forall_mem_singleton.mpr .refl) m hm
  · intro hreach
    induction hreach with
    | refl => exact hmention root List.mem_cons_self
    | tail _ hrefers ih =>
        obtain ⟨m, hm, rfl⟩ := ih
        obtain ⟨m', hm', hnode, htold⟩ := h.exists_told hm
        rw [← hnode] at hrefers
        obtain ⟨r, hr, rfl⟩ := (mem_behind_iff htold).mpr hrefers
        exact hmention r (List.mem_append_right _ (List.mem_flatMap.mpr ⟨m', hm', hr⟩))

end Arena

end IndexSync
