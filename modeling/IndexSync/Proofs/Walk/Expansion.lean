import Mathlib.Data.List.Dedup
import IndexSync.Proofs.Mapping.Closure
import IndexSync.Proofs.Tree.Depth
import IndexSync.Sample.Couple

/-!
# What a walk expands

A walk expands a `type` or `cast` node at most once for each object.  So the pairs that
it meets are bounded by the nodes of the tree and the objects of the store, whatever
cycles the two have.

- `Walk.expansions` — the pairs that a walk expands, in order; a place that is cut is not
  expanded.
- `Walk.Logs` — the invariant: a log of what was expanded lists every pair met, once
  (`Logs.step`, `Logs.runFor`).
- `ChangeTree.exists_end_and_expansions_nodup` — walks through a built tree end, and expand
  each pair once.
-/

namespace IndexSync

/-- Whether a walk follows an object from the node only once. -/
def Node.isGuard : Node → Bool
  | type _ _ | cast _ _ => true
  | property _ _ | extract _ _ | union _ | ifDirty _ _ | reindex | pending => false

/-- The `type` and `cast` nodes of an arena. -/
def Arena.guards (a : Arena) : List NodeId :=
  (List.range a.size).filter fun id => (a.get? id).any Node.isGuard

theorem Arena.mem_guards {a : Arena} {id : NodeId} {node : Node} (h : a.get? id = some node)
    (hguard : node.isGuard = true) : id ∈ a.guards := by
  have hlt : id < a.size := Arena.lt_size_of_get? h
  apply List.mem_filter.mpr
  rw [h]
  exact ⟨List.mem_range.mpr hlt, hguard⟩

namespace Walk

variable {schema : Schema} {w : Walk schema}

/-- The node and the object that a place stands for, if the node is a guard. -/
def pair? (w : Walk schema) (place : Place) : Option Meeting :=
  (w.guarded? place).map fun object => { node := place.1, object }

/-- The pairs that at most so many steps expand, in order.  A step that only counts a cut
expands nothing; one that fails has expanded its place. -/
def expansions (w : Walk schema) : (steps : Nat) → State → List Meeting
  | 0, _ => []
  | steps + 1, s =>
    match s.stack with
    | [] => []
    | place :: rest =>
      match w.step place { s with stack := rest } with
      | .ok s' => (if s'.cut = s.cut then (w.pair? place).toList else []) ++ w.expansions steps s'
      | .error _ => (w.pair? place).toList

/-- The pairs of a guard and an object that a walk from `object` can come to. -/
def pairsFrom (w : Walk schema) (object : ObjectId) : List Meeting :=
  (w.arena.guards ×ˢ (w.objectsFrom object).dedup).map fun (node, object) => { node, object }

theorem length_pairsFrom (object : ObjectId) : (w.pairsFrom object).length =
    w.arena.guards.length * (w.objectsFrom object).dedup.length := by
  rw [pairsFrom, List.length_map, List.length_product]

theorem mem_pair?_iff {place : Place} {m : Meeting} :
    m ∈ (w.pair? place).toList ↔ m.node = place.1 ∧ w.guarded? place = some m.object := by
  rw [Option.mem_toList, pair?, Option.map_eq_some_iff]
  constructor
  · rintro ⟨o, ho, rfl⟩
    exact ⟨rfl, ho⟩
  · rintro ⟨hnode, ho⟩
    refine ⟨m.object, ho, ?_⟩
    rw [← hnode]

theorem mem_pairsFrom_of_pair {object : ObjectId} {place : Place} {m : Meeting}
    (hplace : w.Bounds object place.2) (hm : m ∈ (w.pair? place).toList) :
    m ∈ w.pairsFrom object := by
  obtain ⟨hnode, hguard⟩ := mem_pair?_iff.mp hm
  obtain ⟨ho, hguards⟩ := object?_of_guarded hguard
  have hmem : m.node ∈ w.arena.guards := by
    rw [hnode]
    rcases hguards with ⟨static, dispatch, htype⟩ | ⟨target, nested, hcast⟩
    · exact Arena.mem_guards htype rfl
    · exact Arena.mem_guards hcast rfl
  have hobject : m.object ∈ (w.objectsFrom object).dedup :=
    List.mem_dedup.mpr (hplace.mem_objectsFrom ho)
  exact List.mem_map.mpr ⟨(m.node, m.object), List.mem_product.mpr ⟨hmem, hobject⟩, rfl⟩

/-! ## One step -/

/-- A step counts a cut exactly if it passes a place over. -/
theorem step_cut {place : Place} {s s' : State} (h : w.step place s = .ok s') :
    s'.cut = s.cut + 1 ∧ w.Passes place s s' ∨
      s'.cut = s.cut ∧ ∃ followed, w.Advances place followed s s' := by
  have hcases := step_cases h
  unfold step at h
  rcases hcases with hpass | ⟨followed, hadv⟩
  · left
    obtain ⟨o, ho, hmet⟩ := hpass.met
    rw [ho] at h
    simp only [Findings.meet, hmet, if_true] at h
    cases h
    exact ⟨rfl, hpass⟩
  · right
    refine ⟨?_, followed, hadv⟩
    cases hguard : w.guarded? place with
    | none =>
        rw [hguard] at h
        obtain ⟨_, -, h⟩ := Except.bind_eq_ok.mp h
        cases Except.pure_eq_ok.mp h
        rfl
    | some o =>
        have hfresh := hadv.fresh o hguard
        rw [hguard] at h
        simp only [Findings.meet, hfresh, Bool.false_eq_true, if_false] at h
        obtain ⟨_, -, h⟩ := Except.bind_eq_ok.mp h
        cases Except.pure_eq_ok.mp h
        rfl

/-- A step that fails stands at a pair not met before. -/
theorem fresh_of_step_error {place : Place} {s : State} {e : SyncError}
    (h : w.step place s = .error e) {o : ObjectId} (ho : w.guarded? place = some o) :
    s.findings.hasMet place.1 o = false := by
  unfold step at h
  rw [ho] at h
  cases hmet : s.findings.hasMet place.1 o with
  | false => rfl
  | true =>
      simp only [Findings.meet, hmet, if_true] at h
      cases h

theorem bounds_of_leads {object : ObjectId} {p q : Place} (hp : w.Bounds object p.2)
    (h : w.Leads p q) : w.Bounds object q.2 := by
  obtain ⟨followed, hfollow, hq⟩ := h
  obtain ⟨id, f⟩ := p
  cases hnode : w.arena.get? id with
  | none =>
      rw [follow, hnode] at hfollow
      cases hfollow
  | some node => exact (puts_of_follow hnode hp hfollow).bounds q hq

/-- `log` lists every pair met so far, each once and within the bounds of the walk. -/
structure Logs (w : Walk schema) (object : ObjectId) (log : List Meeting) (s : State) : Prop where
  bounds : ∀ p ∈ s.stack, w.Bounds object p.2
  met : ∀ m : Meeting, m ∈ log ↔ s.findings.hasMet m.node m.object = true
  nodup : log.Nodup
  subset : log ⊆ w.pairsFrom object

/-- A place whose pair has not been met can be added to the log. -/
theorem Logs.append_pair {object : ObjectId} {log : List Meeting} {s : State} {place : Place}
    (h : w.Logs object log s) (hplace : place ∈ s.stack)
    (hfresh : ∀ o, w.guarded? place = some o → s.findings.hasMet place.1 o = false) :
    (log ++ (w.pair? place).toList).Nodup ∧
      log ++ (w.pair? place).toList ⊆ w.pairsFrom object := by
  constructor
  · have hpair : (w.pair? place).toList.Nodup := by cases w.pair? place <;> simp
    refine List.nodup_append'.mpr ⟨h.nodup, hpair, ?_⟩
    intro m hlog hm
    obtain ⟨hnode, hguard⟩ := mem_pair?_iff.mp hm
    have hmet := (h.met m).mp hlog
    rw [hnode, hfresh m.object hguard] at hmet
    cases hmet
  · intro m hm
    rcases List.mem_append.mp hm with hm | hm
    · exact h.subset hm
    · exact mem_pairsFrom_of_pair (h.bounds place hplace) hm

theorem Logs.step {object : ObjectId} {log : List Meeting} {place : Place} {rest : List Place}
    {s s' : State} (h : w.Logs object log s) (hs : s.stack = place :: rest)
    (hstep : w.step place { s with stack := rest } = .ok s') :
    w.Logs object (log ++ if s'.cut = s.cut then (w.pair? place).toList else []) s' := by
  have hplace : place ∈ s.stack := hs ▸ List.mem_cons_self
  have hrest : ∀ p ∈ rest, w.Bounds object p.2 :=
    fun p hp => h.bounds p (hs ▸ List.mem_cons_of_mem _ hp)
  rcases step_cut hstep with ⟨hcut, hpass⟩ | ⟨hcut, followed, hadv⟩
  · have hne : ¬ s'.cut = s.cut := by
      rw [hcut]
      exact Nat.succ_ne_self _
    rw [if_neg hne, List.append_nil]
    refine ⟨?_, ?_, h.nodup, h.subset⟩
    · rw [hpass.stack]
      exact hrest
    · rw [hpass.findings]
      exact h.met
  · rw [if_pos hcut]
    obtain ⟨hnodup, hsubset⟩ := h.append_pair hplace hadv.fresh
    refine ⟨?_, ?_, hnodup, hsubset⟩
    · rw [hadv.stack]
      intro p hp
      rcases List.mem_append.mp hp with hp | hp
      · exact bounds_of_leads (h.bounds place hplace) ⟨followed, hadv.follow, hp⟩
      · exact hrest p hp
    · intro m
      rw [List.mem_append, mem_pair?_iff, h.met, hadv.met]

/-! ## Whole walks -/

/-- What a walk expands goes on the log, and the log then holds every pair met. -/
theorem Logs.runFor {object : ObjectId} {log : List Meeting} {s : State}
    (h : w.Logs object log s) (n : Nat) :
    (log ++ w.expansions n s).Nodup ∧ log ++ w.expansions n s ⊆ w.pairsFrom object ∧
      ∀ m ∈ (w.runFor n s).2.findings.met, m ∈ log ++ w.expansions n s := by
  have hmet : ∀ m ∈ s.findings.met, m ∈ log :=
    fun m hm => (h.met m).mpr (Std.ExtTreeSet.contains_iff_mem.mpr hm)
  -- on the steps; the log carries what has been expanded before
  induction n generalizing s log with
  | zero =>
      rw [expansions, List.append_nil]
      exact ⟨h.nodup, h.subset, hmet⟩
  | succ n ih =>
      rw [expansions, Walk.runFor]
      cases hs : s.stack with
      | nil =>
          dsimp only
          rw [List.append_nil]
          exact ⟨h.nodup, h.subset, hmet⟩
      | cons place rest =>
          dsimp only
          cases hstep : w.step place { s with stack := rest } with
          | error e =>
              dsimp only
              have hfresh : ∀ o, w.guarded? place = some o →
                  s.findings.hasMet place.1 o = false := fun o => fresh_of_step_error hstep
              obtain ⟨hnodup, hsubset⟩ := h.append_pair (hs ▸ List.mem_cons_self) hfresh
              exact ⟨hnodup, hsubset, fun m hm => List.mem_append_left _ (hmet m hm)⟩
          | ok s' =>
              dsimp only
              have h' := h.step hs hstep
              rw [← List.append_assoc]
              exact ih h' fun m hm => (h'.met m).mpr (Std.ExtTreeSet.contains_iff_mem.mpr hm)

theorem logs_start (w : Walk schema) (nodes : List NodeId) (object : ObjectId) :
    w.Logs object [] (start nodes object) where
  bounds := by
    intro p hp
    obtain ⟨node, -, rfl⟩ := mem_start.mp hp
    exact List.mem_cons_self
  met := by
    intro m
    simp [start, Findings.empty, Findings.hasMet]
  nodup := List.nodup_nil
  subset := List.nil_subset _

theorem expansions_start_nodup (nodes : List NodeId) (object : ObjectId) (n : Nat) :
    (w.expansions n (start nodes object)).Nodup := by
  obtain ⟨hnodup, -, -⟩ := (logs_start w nodes object).runFor n
  rwa [List.nil_append] at hnodup

/-- Every pair met has been expanded. -/
theorem size_met_le_length_expansions (nodes : List NodeId) (object : ObjectId) (n : Nat) :
    (w.runFor n (start nodes object)).2.findings.met.size ≤
      (w.expansions n (start nodes object)).length := by
  obtain ⟨-, -, hmet⟩ := (logs_start w nodes object).runFor n
  rw [List.nil_append] at hmet
  rw [← Std.ExtTreeSet.length_toList]
  apply List.Nodup.length_le_of_subset
  · refine Std.ExtTreeSet.distinct_toList.imp ?_
    rintro a _ hne rfl
    exact hne Std.ReflCmp.compare_self
  · intro m hm
    exact hmet m (Std.ExtTreeSet.mem_toList.mp hm)

theorem length_expansions_le (nodes : List NodeId) (object : ObjectId) (n : Nat) :
    (w.expansions n (start nodes object)).length ≤
      w.arena.guards.length * (w.objectsFrom object).dedup.length := by
  obtain ⟨hnodup, hsubset, -⟩ := (logs_start w nodes object).runFor n
  rw [List.nil_append] at hnodup hsubset
  rw [← length_pairsFrom]
  exact hnodup.length_le_of_subset hsubset

end Walk

/-- The tree of the couple. -/
def Sample.coupleTree : ChangeTree :=
  (ChangeTree.build coupleMapping true "Person").value (by decide +kernel)

namespace ChangeTree

variable {defs : List TypeDef} {schema : Schema} {ds : Declarations} {mapping : Mapping schema}
  {filtering : Bool} {type : TypeName} {tree : ChangeTree} {nodes : List NodeId}

/-- Walks through a tree, after an update or a deletion, come to an end over every store.
They expand each pair of a `type` or `cast` node and an object once, so the pairs met are
bounded by these nodes and the objects that the walk starts from or the store refers to. -/
theorem exists_end_and_expansions_nodup (hschema : Schema.ofDefinitions defs = .ok schema)
    (hcompile : Mapping.compile schema ds = .ok mapping)
    (hbuild : ChangeTree.build mapping filtering type = .ok tree)
    (hnodes : nodes = tree.root.toList ∨ nodes = tree.root.toList ++ tree.ownPart.toList)
    (store : ObjectStore schema) (dirty : Option OrdinalSet) (o : ObjectId) :
    let w : Walk schema := { arena := tree.arena, store, dirty }
    (∃ n, (w.runFor n (Walk.start nodes o)).1 ≠ .exhausted) ∧
    ∀ n, (w.expansions n (Walk.start nodes o)).Nodup ∧
      (w.runFor n (Walk.start nodes o)).2.findings.met.size ≤
        (w.expansions n (Walk.start nodes o)).length ∧
      (w.expansions n (Walk.start nodes o)).length ≤
        tree.arena.guards.length * (w.objectsFrom o).dedup.length := by
  intro w
  have hm := Schema.coherent_of_accepted hschema
  have hclosed := Mapping.closed_of_compile hm hcompile
  obtain ⟨tree', l, hbuild', hbuilt⟩ := ChangeTree.build_spec hclosed.bounded filtering type
  cases hbuild.symm.trans hbuild'
  have hlength : nodes.length ≤ 2 := by
    have hroot : tree.root.toList.length ≤ 1 := Option.length_toList_le
    have hpart : tree.ownPart.toList.length ≤ 1 := Option.length_toList_le
    rcases hnodes with rfl | rfl
    · exact Nat.le_succ_of_le hroot
    · rw [List.length_append]
      omega
  constructor
  · have hrun := w.runFor_budget_ne_exhausted hbuilt.shallow hlength o
    exact ⟨_, hrun⟩
  · intro n
    exact ⟨Walk.expansions_start_nodup nodes o n, Walk.size_met_le_length_expansions nodes o n,
      Walk.length_expansions_le nodes o n⟩

theorem exists_end_and_expansions_nodup_couple :
    let w : Walk Sample.coupleSchema :=
      { arena := Sample.coupleTree.arena, store := Sample.couple, dirty := none }
    let nodes := Sample.coupleTree.root.toList ++ Sample.coupleTree.ownPart.toList
    (∃ n, (w.runFor n (Walk.start nodes 1)).1 ≠ .exhausted) ∧
    ∀ n, (w.expansions n (Walk.start nodes 1)).Nodup ∧
      (w.runFor n (Walk.start nodes 1)).2.findings.met.size ≤
        (w.expansions n (Walk.start nodes 1)).length ∧
      (w.expansions n (Walk.start nodes 1)).length ≤
        Sample.coupleTree.arena.guards.length * (w.objectsFrom 1).dedup.length :=
  exists_end_and_expansions_nodup (Except.eq_ok_value _) Sample.compile_couple
    (Except.eq_ok_value _) (.inr rfl) Sample.couple none 1

end ChangeTree

end IndexSync
