import IndexSync.Proofs.Tree.Building

/-!
# How deep parts nest

Laying out parts within parts comes to an end by itself, as every part is laid out once.

- `Agree` — two ways of laying out come to the same while enough depth is left.
- `agree_layPart` — the depth allowed for parts does not matter if it exceeds the number of
  types that have not been met yet.
- `ChangeTree.layWithin` — the tree with some depth allowed; `run_layWithin`: any depth beyond the
  number of concrete types comes to the same.
-/

namespace IndexSync

namespace Layout

variable {α β : Type} {types : List TypeName} {bound : Nat}

/-- Both ways come to the same, and no type that has been met is lost. -/
def Same (types : List TypeName) (l : Layout) (x x' : StateM Layout α) : Prop :=
  x.run l = x'.run l ∧ (x.run l).2.unmet types ≤ l.unmet types

/-- Both ways come to the same wherever fewer than `bound` of the types have not been met. -/
def Agree (types : List TypeName) (bound : Nat) (x x' : StateM Layout α) : Prop :=
  ∀ l : Layout, l.unmet types < bound → Same types l x x'

theorem Agree.pure (a : α) : Agree types bound (Pure.pure a) (Pure.pure a) :=
  fun _ _ => ⟨rfl, Nat.le_refl _⟩

theorem Agree.bind {x x' : StateM Layout α} {f f' : α → StateM Layout β}
    (hx : Agree types bound x x') (hf : ∀ a, Agree types bound (f a) (f' a)) :
    Agree types bound (x >>= f) (x' >>= f') := by
  intro l hl
  obtain ⟨heq, hle⟩ := hx l hl
  obtain ⟨heq', hle'⟩ := hf (x.run l).1 (x.run l).2 (Nat.lt_of_le_of_lt hle hl)
  refine ⟨?_, Nat.le_trans hle' hle⟩
  show (f (x.run l).1).run (x.run l).2 = (f' (x'.run l).1).run (x'.run l).2
  rw [← heq]
  exact heq'

theorem Agree.get {f f' : Layout → StateM Layout α}
    (h : ∀ l : Layout, l.unmet types < bound → Same types l (f l) (f' l)) :
    Agree types bound (MonadState.get >>= f) (MonadState.get >>= f') :=
  h

theorem Same.refl_of_extends {l : Layout} {x : StateM Layout α} (h : l.Extends (x.run l).2) :
    Same types l x x :=
  ⟨rfl, h.unmet_le types⟩

/-- Opening a part and then going on. -/
theorem Same.open {l : Layout} {c : TypeName} {f f' : NodeId → StateM Layout α}
    (hc : l.parts[c]? = none) (h : Same types (l.opening c) (f l.arena.size) (f' l.arena.size)) :
    Same types l
      (do
        let place ← pushNode .pending
        rememberPart c (some place)
        f place)
      (do
        let place ← pushNode .pending
        rememberPart c (some place)
        f' place) :=
  ⟨h.1, Nat.le_trans h.2 ((extends_opening hc).unmet_le types)⟩

/-! ## Single nodes -/

theorem agree_pushNode (node : Node) : Agree types bound (pushNode node) (pushNode node) :=
  fun _ _ => ⟨rfl, Nat.le_refl _⟩

theorem agree_replaceNode (id : NodeId) (node : Node) :
    Agree types bound (replaceNode id node) (replaceNode id node) :=
  fun _ _ => ⟨rfl, Nat.le_refl _⟩

theorem agree_layFiltered (rule : FilterRule) (relevance : OrdinalSet) (id? : Option NodeId) :
    Agree types bound (layFiltered rule relevance id?) (layFiltered rule relevance id?) := by
  cases id? with
  | none => exact .pure none
  | some id =>
      cases hn : rule.narrows relevance with
      | false =>
          simp only [layFiltered, hn, Bool.false_eq_true, if_false]
          exact .pure _
      | true =>
          simp only [layFiltered, hn, if_true]
          exact (agree_pushNode _).bind fun _ => .pure _

theorem agree_layJoined (ids : List NodeId) :
    Agree types bound (layJoined ids) (layJoined ids) :=
  match ids with
  | [] => .pure none
  | [id] => .pure (some id)
  | _ :: _ :: _ => (agree_pushNode _).bind fun _ => .pure _

theorem agree_layBefore (node : NodeId → Node) (nested : Option NodeId) :
    Agree types bound (layBefore node nested) (layBefore node nested) :=
  match nested with
  | none => .pure none
  | some _ => (agree_pushNode _).bind fun _ => .pure _

theorem agree_layMark (indexed : Bool) :
    Agree types bound (layMark indexed) (layMark indexed) :=
  match indexed with
  | false => .pure []
  | true => (agree_pushNode _).bind fun _ => .pure _

/-! ## Merged sequences -/

section

variable {part part' : TypeName → StateM Layout (Option NodeId)}

theorem agree_layOwn (hpart : ∀ c, Agree types bound (part c) (part' c))
    (rule : FilterRule) (concrete : TypeName) (ended : Option OrdinalSet) :
    Agree types bound (layOwn part rule concrete ended) (layOwn part' rule concrete ended) :=
  match ended with
  | none => .pure none
  | some _ => (hpart concrete).bind fun _ => agree_layFiltered _ _ _

theorem agree_layDispatch (hpart : ∀ c, Agree types bound (part c) (part' c))
    (rule : FilterRule) (ended : Option OrdinalSet) (continuation : Option NodeId)
    (concretes : List TypeName) (dispatch : SortedMap TypeName NodeId) :
    Agree types bound (layDispatch part rule ended continuation dispatch concretes)
      (layDispatch part' rule ended continuation dispatch concretes) := by
  induction concretes generalizing dispatch with
  | nil => exact .pure dispatch
  | cons concrete rest ih =>
      refine (agree_layOwn hpart rule concrete ended).bind fun own => ?_
      exact (agree_layJoined _).bind fun entry => ih _

theorem agree_layLanding (hpart : ∀ c, Agree types bound (part c) (part' c))
    (rule : FilterRule) (static : TypeName) (concretes : List TypeName)
    (ended : Option OrdinalSet) (continuation : Option NodeId) :
    Agree types bound (layLanding part rule static concretes ended continuation)
      (layLanding part' rule static concretes ended continuation) := by
  refine (agree_layDispatch hpart rule ended continuation concretes ∅).bind fun dispatch => ?_
  cases dispatch.isEmpty with
  | true => exact .pure none
  | false => exact (agree_pushNode _).bind fun _ => .pure _

mutual

theorem agree_layBranch (hpart : ∀ c, Agree types bound (part c) (part' c)) (m : Schema)
    (rule : FilterRule) (move : Move) :
    ∀ t : Trie, Agree types bound (layBranch m part rule move t) (layBranch m part' rule move t)
  | .fork ended branches => by
      rw [layBranch, layBranch]
      refine (agree_layBranches hpart m rule branches).bind fun ids => ?_
      refine (agree_layJoined ids).bind fun continuation => ?_
      cases move with
      | read | extract | cast => exact agree_layBefore _ continuation
      | land type => exact agree_layLanding hpart rule type _ ended continuation

theorem agree_layBranches (hpart : ∀ c, Agree types bound (part c) (part' c)) (m : Schema)
    (rule : FilterRule) :
    ∀ branches : List (Move × OrdinalSet × Trie),
      Agree types bound (layBranches m part rule branches) (layBranches m part' rule branches)
  | [] => by
      rw [layBranches, layBranches]
      exact .pure []
  | (move, relevance, next) :: rest => by
      rw [layBranches, layBranches]
      refine (agree_layBranch hpart m (rule.inside relevance) move next).bind fun id? => ?_
      refine (agree_layFiltered rule relevance id?).bind fun here => ?_
      exact (agree_layBranches hpart m rule rest).bind fun more => .pure _

end

theorem agree_layTrie (hpart : ∀ c, Agree types bound (part c) (part' c))
    (m : Schema) (rule : FilterRule) (static : TypeName) (concretes : List TypeName) (trie : Trie) :
    Agree types bound (layTrie m part rule static concretes trie)
      (layTrie m part' rule static concretes trie) := by
  refine (agree_layBranches hpart m rule trie.branches).bind fun ids => ?_
  refine (agree_layJoined ids).bind fun continuation => ?_
  exact agree_layLanding hpart rule static concretes trie.ended continuation

end

/-! ## Document parts -/

variable {schema : Schema}

/-- With two depths that both exceed the number of types that have not been met, parts are
laid out alike. -/
theorem agree_layPart (mapping : Mapping schema) (depth depth' : Nat) (c : TypeName) :
    Agree mapping.documents (min depth depth') (layPart mapping depth c)
      (layPart mapping depth' c) := by
  -- on the depth; opening a part meets one more type, so less depth is needed within
  induction depth generalizing depth' c with
  | zero => exact fun l hl => absurd hl (by simp)
  | succ depth ih =>
      cases depth' with
      | zero => exact fun l hl => absurd hl (by simp)
      | succ depth' =>
          rw [layPart, layPart]
          refine .get fun l hl => ?_
          cases hc : l.parts[c]? with
          | some known => exact .refl_of_extends (.refl l)
          | none =>
              cases hpart : mapping.hasPart c with
              | false =>
                  simp only [Bool.not_false, if_true]
                  exact .refl_of_extends (extends_remembering hc)
              | true =>
                  simp only [Bool.not_true, Bool.false_eq_true, if_false]
                  refine .open hc ?_
                  have hless := (extends_opening hc).unmet_lt (of_decide_eq_true hpart) hc
                    part_remembering_self
                  have hroom : (l.opening c).unmet mapping.documents < min depth depth' := by
                    omega
                  refine Agree.bind (agree_layMark _) (fun mark => ?_) (l.opening c) hroom
                  refine (agree_layBranches (ih depth') schema .never _).bind fun ends => ?_
                  refine (agree_layJoined ends).bind fun embedding => ?_
                  exact (agree_replaceNode _ _).bind fun _ => .pure _

end Layout

/-! ## Whole trees -/

namespace ChangeTree

variable {schema : Schema} {mapping : Mapping schema}

/-- Lays out a tree with some depth allowed for parts within parts. -/
def layWithin (depth : Nat) (mapping : Mapping schema) (filtering : Bool) (type : TypeName) :
    StateM Layout (Option NodeId × Option NodeId) := do
  let part := layPart mapping depth
  let rule := if filtering then FilterRule.always else .never
  let trie := Trie.ofSequences (sequences mapping type).2
  let root ← layTrie schema part rule type [type] trie
  return (root, ← part type)

/-- Any depth beyond the number of concrete types comes to the same tree. -/
theorem run_layWithin (h : mapping.documents.length ≤ schema.concretes.length) {depth : Nat}
    (hdepth : schema.concretes.length < depth) (filtering : Bool) (type : TypeName) :
    (layWithin depth mapping filtering type).run .empty =
      (lay mapping filtering type).run .empty := by
  have hpart := Layout.agree_layPart mapping depth (schema.concretes.length + 2)
  have hagree : Layout.Agree mapping.documents (min depth (schema.concretes.length + 2))
      (layWithin depth mapping filtering type) (lay mapping filtering type) := by
    refine (Layout.agree_layTrie hpart schema _ type [type] _).bind fun root => ?_
    exact (hpart type).bind fun ownPart => .pure _
  have hunmet : Layout.empty.unmet mapping.documents ≤ mapping.documents.length :=
    List.countP_le_length
  exact (hagree .empty (by omega)).1

end ChangeTree

end IndexSync
