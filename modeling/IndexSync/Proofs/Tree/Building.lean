import IndexSync.Proofs.Counting
import IndexSync.Proofs.Tree.Wiring

/-!
# Laying out trees

Building a tree lays out what its triggers say.

- `Layout.Builds` — what a step of the building makes of a layout; steps are put
  together by `Builds.bind`.
- `builds_layBranches`, `builds_layTrie` — merged sequences, whatever parts are
  made of.
- `Layout.Sound` — finished parts are what they should be, and only the places of
  parts still being laid out are pending; `Layout.Growing` — all nodes are wired, besides.
- `ChangeTree.build_layout`, `build_spec` — every tree gets built, and nothing in it is
  pending.
-/

namespace IndexSync

namespace Layout

/-- The layout with one more node. -/
def grown (l : Layout) (node : Node) : Layout := { l with arena := (l.arena.push node).2 }

theorem get?_grown_of_some {l : Layout} {id : NodeId} {node : Node}
    (h : l.arena.get? id = some node) (other : Node) :
    (l.grown other).arena.get? id = some node :=
  (Arena.get?_push_of_lt (Arena.lt_size_of_get? h) other).trans h

theorem extends_grown (l : Layout) (node : Node) : l.Extends (l.grown node) where
  node := fun h _ => get?_grown_of_some h node
  part := id
  size := by
    show l.arena.size ≤ (l.arena.push node).2.size
    rw [Arena.size_push]
    exact Nat.le_succ _

/-! ## Steps of the building -/

variable {α β : Type} {I : Layout → Prop} {l : Layout}

/-- What `x` makes of the layout `l`: a later one that keeps `I`, with a result
that meets `Q` there. -/
def Builds (I : Layout → Prop) (l : Layout) (x : StateM Layout α) (Q : α → Layout → Prop) :
    Prop :=
  l.Extends (x.run l).2 ∧ I (x.run l).2 ∧ Q (x.run l).1 (x.run l).2

theorem Builds.pure {a : α} {Q : α → Layout → Prop} (hI : I l) (hQ : Q a l) :
    Builds I l (Pure.pure a) Q :=
  ⟨.refl l, hI, hQ⟩

theorem Builds.bind {J : Layout → Prop} {x : StateM Layout α} {f : α → StateM Layout β}
    {Q : α → Layout → Prop} {R : β → Layout → Prop} (hx : Builds I l x Q)
    (hf : ∀ a l', l.Extends l' → I l' → Q a l' → Builds J l' (f a) R) : Builds J l (x >>= f) R := by
  obtain ⟨hext, hI, hQ⟩ := hx
  obtain ⟨hext', hI', hR⟩ := hf _ _ hext hI hQ
  exact ⟨hext.trans hext', hI', hR⟩

theorem Builds.mono {x : StateM Layout α} {Q R : α → Layout → Prop} (hx : Builds I l x Q)
    (h : ∀ a l', l.Extends l' → Q a l' → R a l') : Builds I l x R :=
  ⟨hx.1, hx.2.1, h _ _ hx.1 hx.2.2⟩

/-! ## Dispatches -/

theorem getElem?_withEntry {before : SortedMap TypeName NodeId} {concrete c : TypeName}
    {entry : Option NodeId} :
    (withEntry before concrete entry)[c]? =
      if concrete = c then entry <|> before[c]? else before[c]? := by
  cases entry with
  | none => simp [withEntry]
  | some id =>
      rw [withEntry, Std.ExtTreeMap.getElem?_insert]
      simp [Std.LawfulEqCmp.compare_eq_iff_eq]

/-- What entering `concretes` makes of the dispatch `before`. -/
structure Dispatches (l : Layout) (rule : FilterRule) (ended : Option OrdinalSet)
    (continuation : Option NodeId) (before : SortedMap TypeName NodeId)
    (concretes : List TypeName) (dispatch : SortedMap TypeName NodeId) : Prop where
  entry : ∀ (c : TypeName) (id : NodeId), dispatch[c]? = some id →
    l.Enters rule ended continuation c (some id)
  keeps : ∀ c : TypeName, before[c]?.isSome → dispatch[c]?.isSome
  keys : ∀ (c : TypeName) (id : NodeId), dispatch[c]? = some id →
    before[c]?.isSome ∨ c ∈ concretes
  all : ∀ c ∈ concretes, l.Enters rule ended continuation c dispatch[c]?

theorem Dispatches.cons {rule : FilterRule} {ended : Option OrdinalSet}
    {continuation : Option NodeId} {before dispatch : SortedMap TypeName NodeId}
    {concrete : TypeName} {rest : List TypeName} {entry : Option NodeId}
    (henter : l.Enters rule ended continuation concrete entry)
    (h : l.Dispatches rule ended continuation (withEntry before concrete entry) rest dispatch) :
    l.Dispatches rule ended continuation before (concrete :: rest) dispatch where
  entry := h.entry
  keeps := by
    intro c hc
    refine h.keeps c ?_
    rw [getElem?_withEntry]
    by_cases heq : concrete = c
    · rw [if_pos heq]
      cases entry with
      | none => exact hc
      | some id => rfl
    · rw [if_neg heq]
      exact hc
  keys := by
    intro c id hc
    rcases h.keys c id hc with hb | hb
    · rw [getElem?_withEntry] at hb
      by_cases heq : concrete = c
      · exact .inr (heq ▸ List.mem_cons_self)
      · rw [if_neg heq] at hb
        exact .inl hb
    · exact .inr (.tail _ hb)
  all := by
    rintro c (_ | ⟨_, hc⟩)
    · cases hd : dispatch[concrete]? with
      | some id => exact h.entry _ _ hd
      | none =>
          cases entry with
          | none => exact henter
          | some id =>
              have hkept := h.keeps concrete (by simp [getElem?_withEntry])
              simp [hd] at hkept
    · exact h.all c hc

/-! ## Merged sequences -/

/-- The node can be laid out next: it is finished, comes behind those that it refers to,
and is wired. -/
structure Layable (l : Layout) (keys : TypeName → TypeName → Prop) (node : Node) : Prop where
  filled : node ≠ .pending
  behind : ∀ next ∈ node.children, next < l.arena.size
  wires : l.Wires keys node

/-- What laying out merged sequences relies on: nodes can be added that can be laid out
next, parts lie within the arena, and `part` lays out the part of a type. -/
structure Supports (I : Layout → Prop) (keys : TypeName → TypeName → Prop)
    (part : TypeName → StateM Layout (Option NodeId)) : Prop where
  grown : ∀ {l : Layout} {node : Node}, I l → l.Layable keys node → I (l.grown node)
  bound : ∀ {l : Layout} {c : TypeName} {id : NodeId}, I l → l.parts[c]? = some (some id) →
    id < l.arena.size
  part : ∀ {l : Layout} (c : TypeName), I l →
    Builds I l (part c) fun id? l' => l'.parts[c]? = some id?

section

variable {keys : TypeName → TypeName → Prop} {part : TypeName → StateM Layout (Option NodeId)}
  (hs : Supports I keys part)
include hs

theorem builds_pushNode {node : Node} (hI : I l) (h : l.Layable keys node) :
    Builds I l (pushNode node) fun id l' => l'.arena.get? id = some node ∧ id = l.arena.size :=
  ⟨extends_grown l node, hs.grown hI h, Arena.get?_push_self l.arena node, rfl⟩

theorem builds_layFiltered {rule : FilterRule} {relevance : OrdinalSet} {id? : Option NodeId}
    (hI : I l) (hlt : ∀ id ∈ id?, id < l.arena.size) :
    Builds I l (layFiltered rule relevance id?) fun here l' =>
      l'.Filters rule relevance id? here := by
  cases id? with
  | none => exact .pure hI .none
  | some id =>
      cases hn : rule.narrows relevance with
      | false =>
          simp only [layFiltered, hn, Bool.false_eq_true, if_false]
          exact .pure hI (.free hn)
      | true =>
          simp only [layFiltered, hn, if_true]
          have hlay : l.Layable keys (.ifDirty relevance id) :=
            ⟨nofun, List.forall_mem_singleton.mpr (hlt id rfl), wires_of_move?_eq_none rfl⟩
          refine (builds_pushNode hs hI hlay).bind ?_
          rintro u l' - hI' ⟨hu, rfl⟩
          exact .pure hI' (.behind hn hu (hlt id rfl))

theorem builds_layJoined {ids : List NodeId} (hI : I l) (hlt : ∀ id ∈ ids, id < l.arena.size) :
    Builds I l (layJoined ids) fun id? l' => l'.Joins ids id? := by
  match ids with
  | [] => exact .pure hI .none
  | [id] => exact .pure hI (.one id)
  | id :: id' :: rest =>
      have hlay : l.Layable keys (.union (id :: id' :: rest)) :=
        ⟨nofun, hlt, wires_of_move?_eq_none rfl⟩
      refine (builds_pushNode hs hI hlay).bind ?_
      rintro u l' - hI' ⟨hu, rfl⟩
      exact .pure hI' (.union hu hlt (by simp))

theorem builds_layBefore {node : NodeId → Node} {nested : Option NodeId} (hI : I l)
    (hnode : ∀ id, node id ≠ .pending) (hchildren : ∀ id, (node id).children ⊆ [id])
    (hlt : ∀ id ∈ nested, id < l.arena.size) (hwire : ∀ id ∈ nested, l.Wires keys (node id)) :
    Builds I l (layBefore node nested) fun id? l' => l'.Precedes node nested id? := by
  cases nested with
  | none => exact .pure hI .none
  | some id =>
      have hnext : ∀ next ∈ (node id).children, next < l.arena.size := by
        intro next hmem
        cases List.mem_singleton.mp (hchildren id hmem)
        exact hlt id rfl
      refine (builds_pushNode hs hI ⟨hnode id, hnext, hwire id rfl⟩).bind ?_
      rintro u l' - hI' ⟨hu, rfl⟩
      exact .pure hI' (.some hu (hlt id rfl))

theorem builds_layOwn {rule : FilterRule} {concrete : TypeName} {ended : Option OrdinalSet}
    (hI : I l) :
    Builds I l (layOwn part rule concrete ended) fun own l' => l'.Owns rule concrete ended own := by
  cases ended with
  | none => exact .pure hI .unended
  | some relevance =>
      refine (hs.part concrete hI).bind ?_
      intro id? l₁ _ hI₁ hpart
      have hlt : ∀ id ∈ id?, id < l₁.arena.size := by
        rintro id rfl
        exact hs.bound hI₁ hpart
      exact (builds_layFiltered hs hI₁ hlt).mono fun own l₂ hext hfilter =>
        .ended (hext.part hpart) hfilter

theorem Owns.lt_size {rule : FilterRule} {concrete : TypeName} {ended : Option OrdinalSet}
    {id : NodeId} (hI : I l) (h : l.Owns rule concrete ended (some id)) : id < l.arena.size := by
  cases h with
  | ended hpart hfilter =>
      cases hfilter with
      | free => exact hs.bound hI hpart
      | behind _ hu => exact Arena.lt_size_of_get? hu

theorem Enters.lt_size {rule : FilterRule} {ended : Option OrdinalSet}
    {continuation : Option NodeId} {concrete : TypeName} {id : NodeId} (hI : I l)
    (hlt : ∀ id ∈ continuation, id < l.arena.size)
    (h : l.Enters rule ended continuation concrete (some id)) : id < l.arena.size := by
  obtain ⟨own, hown, hjoin⟩ := h
  refine hjoin.lt_size fun next hnext => ?_
  rcases List.mem_append.mp hnext with hnext | hnext
  · cases Option.mem_toList.mp hnext
    exact hown.lt_size hs hI
  · exact hlt next (Option.mem_toList.mp hnext)

theorem builds_layDispatch {rule : FilterRule} {ended : Option OrdinalSet}
    {continuation : Option NodeId} {concretes : List TypeName}
    {before : SortedMap TypeName NodeId} (hI : I l)
    (hlt : ∀ id ∈ continuation, id < l.arena.size)
    (hentry : ∀ (c : TypeName) (id : NodeId), before[c]? = some id →
      l.Enters rule ended continuation c (some id)) :
    Builds I l (layDispatch part rule ended continuation before concretes) fun dispatch l' =>
      l'.Dispatches rule ended continuation before concretes dispatch := by
  induction concretes generalizing before l with
  | nil => exact .pure hI ⟨hentry, fun _ => id, fun c id h => .inl (by simp [h]), by simp⟩
  | cons concrete rest ih =>
      refine (builds_layOwn hs hI).bind ?_
      intro own l₁ hext₁ hI₁ hown
      have hlt₁ : ∀ id ∈ own.toList ++ continuation.toList, id < l₁.arena.size := by
        intro id hid
        rcases List.mem_append.mp hid with hid | hid
        · cases Option.mem_toList.mp hid
          exact hown.lt_size hs hI₁
        · exact Nat.lt_of_lt_of_le (hlt id (Option.mem_toList.mp hid)) hext₁.size
      refine (builds_layJoined hs hI₁ hlt₁).bind ?_
      intro entry l₂ hext₂ hI₂ hjoin
      have henter : l₂.Enters rule ended continuation concrete entry :=
        ⟨own, hown.extend hext₂, hjoin⟩
      have hext := hext₁.trans hext₂
      refine (ih hI₂ ?_ ?_).mono ?_
      · exact fun id hid => Nat.lt_of_lt_of_le (hlt id hid) hext.size
      · intro c id hc
        rw [getElem?_withEntry] at hc
        by_cases heq : concrete = c
        · rw [if_pos heq] at hc
          subst heq
          -- an object entered here before keeps its entry if there is none now
          cases entry with
          | some _ => exact hc ▸ henter
          | none => exact (hentry _ _ hc).extend hext
        · rw [if_neg heq] at hc
          exact (hentry c id hc).extend hext
      · intro dispatch l₃ hext₃ hd
        exact hd.cons (henter.extend hext₃)

theorem builds_layLanding {rule : FilterRule} {static : TypeName} {concretes : List TypeName}
    {ended : Option OrdinalSet} {continuation : Option NodeId} (hI : I l)
    (hlt : ∀ id ∈ continuation, id < l.arena.size) (hkeys : ∀ c ∈ concretes, keys static c)
    (hfirm : ∀ id ∈ continuation, l.Firm id) :
    Builds I l (layLanding part rule static concretes ended continuation) fun id? l' =>
      l'.Lands rule static concretes ended continuation id? := by
  refine (builds_layDispatch hs hI hlt (by simp)).bind ?_
  intro dispatch l₁ hext₁ hI₁ hd
  cases hempty : dispatch.isEmpty with
  | true =>
      rw [if_pos rfl]
      refine .pure hI₁ (.nowhere fun c hc => ?_)
      have henter := hd.all c hc
      rw [Std.ExtTreeMap.isEmpty_iff.mp hempty, Std.ExtTreeMap.getElem?_empty] at henter
      exact henter
  | false =>
      rw [if_neg (by simp)]
      have hmem : ∀ (c : TypeName) (id : NodeId), dispatch[c]? = some id → c ∈ concretes :=
        fun c id hc => (hd.keys c id hc).resolve_left (by simp)
      have hlay : l₁.Layable keys (.type static dispatch) := by
        refine ⟨nofun, fun next hnext => ?_, fun move hmove hread next hnext => ?_, ?_⟩
        · obtain ⟨c, hc⟩ := SortedMap.exists_of_mem_contents hnext
          exact (hd.entry c next hc).lt_size hs hI₁ fun id hid =>
            Nat.lt_of_lt_of_le (hlt id hid) hext₁.size
        · obtain ⟨c, hc⟩ := SortedMap.exists_of_mem_contents hnext
          exact (hd.entry c next hc).firm fun id hid => (hfirm id hid).extend hext₁
        · rintro _ _ ⟨⟩ c id hc
          exact hkeys c (hmem c id hc)
      refine (builds_pushNode hs hI₁ hlay).bind ?_
      rintro u l₂ hext hI₂ ⟨hu, -⟩
      exact .pure hI₂ (.somewhere hu (fun c hc => (hd.all c hc).extend hext) hmem
        (SortedMap.exists_of_isEmpty_eq_false hempty))

mutual

theorem builds_layBranch {m : Schema} {rule : FilterRule} {move : Move}
    (hkeys : ∀ static, ∀ c ∈ m.concretesUnder static, keys static c) :
    ∀ {t : Trie} {l : Layout}, I l → t.Follows move →
      Builds I l (layBranch m part rule move t) fun id? l' => l'.Branch m rule move t id?
  | .fork ended branches, l, hI, hfollow => by
      rw [layBranch]
      refine (builds_layBranches hkeys hI fun _ _ _ hmem => hfollow.next hmem).bind ?_
      intro ids l₁ _ hI₁ hids
      refine (builds_layJoined hs hI₁ fun id hid => hids.lt_size hid).bind ?_
      intro continuation l₂ hext hI₂ hjoin
      have hfirm : move.reads = false → ∀ id ∈ continuation, l₂.Firm id := fun hread =>
        Branches.firm_continuation hfollow hread (Branches.extend hext hids) hjoin
      have hlt : ∀ id ∈ continuation, id < l₂.arena.size := by
        rintro id rfl
        exact hjoin.lt_size fun id hid => (Branches.extend hext hids).lt_size hid
      have hmake : Builds I l₂
          (match move with
            | .read name => layBefore (.property name) continuation
            | .extract e => layBefore (.extract e) continuation
            | .cast target => layBefore (.cast target) continuation
            | .land type => layLanding part rule type (m.concretesUnder type) ended continuation)
          fun id? l' => l'.Makes m rule ended continuation move id? := by
        have hself : ∀ id : NodeId, [id] ⊆ [id] := fun _ => List.Subset.refl _
        cases move with
        | read name =>
            refine builds_layBefore hs hI₂ nofun hself hlt fun id _ => ⟨?_, nofun⟩
            rintro _ ⟨⟩ ⟨⟩
        | extract e =>
            refine builds_layBefore hs hI₂ nofun hself hlt fun id _ => ⟨?_, nofun⟩
            rintro _ ⟨⟩ ⟨⟩
        | cast target =>
            refine builds_layBefore hs hI₂ nofun hself hlt fun id hid => ⟨?_, nofun⟩
            rintro _ ⟨⟩ hread
            exact List.forall_mem_singleton.mpr (hfirm hread id hid)
        | land type => exact builds_layLanding hs hI₂ hlt (hkeys type) (hfirm rfl)
      refine hmake.mono fun id? l₃ hext₃ hmade => ?_
      rw [Branch]
      exact ⟨ids, continuation, Branches.extend (hext.trans hext₃) hids, hjoin.extend hext₃, hmade⟩

theorem builds_layBranches {m : Schema} {rule : FilterRule}
    (hkeys : ∀ static, ∀ c ∈ m.concretesUnder static, keys static c) :
    ∀ {branches : List (Move × OrdinalSet × Trie)} {l : Layout}, I l →
      (∀ move relevance next, (move, relevance, next) ∈ branches → next.Follows move) →
      Builds I l (layBranches m part rule branches) fun ids l' => l'.Branches m rule branches ids
  | [], l, hI, _ => by
      rw [layBranches]
      exact .pure hI (by rw [Branches])
  | (move, relevance, next) :: rest, l, hI, hfollow => by
      rw [layBranches]
      refine (builds_layBranch hkeys hI (hfollow move relevance next List.mem_cons_self)).bind ?_
      intro id? l₁ _ hI₁ hbranch
      refine (builds_layFiltered hs hI₁ fun id hid => ?_).bind ?_
      · cases hid
        exact hbranch.lt_size
      intro here l₂ hext₂ hI₂ hfilter
      refine (builds_layBranches hkeys hI₂ fun move relevance next hmem =>
        hfollow move relevance next (.tail _ hmem)).bind ?_
      intro more l₃ hext₃ hI₃ hmore
      refine .pure hI₃ ?_
      rw [Branches]
      exact ⟨id?, here, more, Branch.extend (hext₂.trans hext₃) hbranch, hfilter.extend hext₃,
        hmore, rfl⟩

end

variable {m : Schema} (hkeys : ∀ static, ∀ c ∈ m.concretesUnder static, keys static c)
include hkeys

theorem builds_layTrie {rule : FilterRule} {static : TypeName} {concretes : List TypeName}
    {trie : Trie} (hI : I l) (hfollow : trie.Follows (.land static))
    (hroot : ∀ c ∈ concretes, keys static c) :
    Builds I l (layTrie m part rule static concretes trie) fun id? l' =>
      l'.Tree m rule static concretes trie id? := by
  refine (builds_layBranches hs hkeys hI fun _ _ _ hmem => hfollow.next hmem).bind ?_
  intro ids l₁ _ hI₁ hids
  refine (builds_layJoined hs hI₁ fun id hid => hids.lt_size hid).bind ?_
  intro continuation l₂ hext hI₂ hjoin
  have hids₂ := Branches.extend hext hids
  refine (builds_layLanding hs hI₂ ?_ hroot ?_).mono ?_
  · rintro id rfl
    exact hjoin.lt_size fun id hid => hids₂.lt_size hid
  · exact Branches.firm_continuation hfollow rfl hids₂ hjoin
  · intro id? l₃ hext₃ hland
    exact ⟨ids, continuation, Branches.extend (hext.trans hext₃) hids, hjoin.extend hext₃, hland⟩

end

/-! ## Document parts -/

variable {schema : Schema} {mapping : Mapping schema}

/-- Types without a part are known as such, places are given out once, those of
the parts in `inside` are pending and no other node is, all other parts are laid
out, and nodes other than parts come after those that they refer to. -/
structure Sound (l : Layout) (mapping : Mapping schema) (inside : List TypeName) : Prop where
  absent : ∀ {c : TypeName}, l.parts[c]? = some none → mapping.hasPart c = false
  present : ∀ {c : TypeName} {place : NodeId}, l.parts[c]? = some (some place) →
    mapping.hasPart c = true
  opened : ∀ {c : TypeName}, c ∈ inside → ∃ place, l.parts[c]? = some (some place) ∧
    l.arena.get? place = some .pending
  laid : ∀ {c : TypeName} {place : NodeId}, l.parts[c]? = some (some place) → c ∉ inside →
    l.Part mapping c place
  distinct : ∀ {c c' : TypeName} {place : NodeId}, l.parts[c]? = some (some place) →
    l.parts[c']? = some (some place) → c = c'
  pending : ∀ {id : NodeId}, l.arena.get? id = some .pending →
    ∃ c ∈ inside, l.parts[c]? = some (some id)
  ordered : ∀ {id : NodeId} {node : Node}, l.arena.get? id = some node →
    (∃ c : TypeName, l.parts[c]? = some (some id)) ∨ ∀ next ∈ node.children, next < id

theorem sound_empty : empty.Sound mapping [] where
  absent h := by simp [empty] at h
  present h := by simp [empty] at h
  opened h := by cases h
  laid h := by simp [empty] at h
  distinct h := by simp [empty] at h
  pending h := by simp [empty, Arena.empty, Arena.get?] at h
  ordered h := by simp [empty, Arena.empty, Arena.get?] at h

variable {inside : List TypeName}

/-- The places of parts lie within the arena. -/
theorem Sound.bound (h : l.Sound mapping inside) {c : TypeName} {place : NodeId}
    (hc : l.parts[c]? = some (some place)) : place < l.arena.size := by
  by_cases ho : c ∈ inside
  · obtain ⟨place', hplace, hpending⟩ := h.opened ho
    cases hplace.symm.trans hc
    exact Arena.lt_size_of_get? hpending
  · obtain ⟨_, _, _, hplace, -⟩ := h.laid hc ho
    exact Arena.lt_size_of_get? hplace

theorem get?_grown_cases {node other : Node} {id : NodeId}
    (h : (l.grown node).arena.get? id = some other) :
    l.arena.get? id = some other ∨ id = l.arena.size ∧ other = node := by
  rcases Nat.lt_or_ge id l.arena.size with hlt | hge
  · exact .inl ((Arena.get?_push_of_lt hlt node).symm.trans h)
  · have hlt := Arena.lt_size_of_get? h
    rw [Layout.grown, Arena.size_push] at hlt
    obtain rfl : id = l.arena.size := Nat.le_antisymm (Nat.lt_succ_iff.mp hlt) hge
    exact .inr ⟨rfl, Option.some.inj (h.symm.trans (Arena.get?_push_self l.arena node))⟩

variable {keys : TypeName → TypeName → Prop}

theorem Sound.grown (h : l.Sound mapping inside) {node : Node} (hlay : l.Layable keys node) :
    (l.grown node).Sound mapping inside where
  absent := h.absent
  present := h.present
  opened ho := by
    obtain ⟨place, hplace, hpending⟩ := h.opened ho
    exact ⟨place, hplace, get?_grown_of_some hpending node⟩
  laid hc ho := (h.laid hc ho).extend (extends_grown l node)
  distinct := h.distinct
  pending hid := by
    rcases get?_grown_cases hid with hid | ⟨-, heq⟩
    · exact h.pending hid
    · exact absurd heq.symm hlay.filled
  ordered hid := by
    rcases get?_grown_cases hid with hid | ⟨rfl, rfl⟩
    · exact h.ordered hid
    · exact .inr hlay.behind

theorem Wired.grown (h : l.Wired keys) {node : Node} (hwire : l.Wires keys node) :
    (l.grown node).Wired keys := by
  intro id other hid
  rcases get?_grown_cases hid with hid | ⟨-, rfl⟩
  · exact (h id other hid).extend (extends_grown l node)
  · exact hwire.extend (extends_grown l _)

theorem wired_empty : empty.Wired keys := by
  intro id node hid
  simp [empty, Arena.empty, Arena.get?] at hid

/-! ### A part is remembered -/

/-- The layout with what is known of the part of a type. -/
def remembering (l : Layout) (c : TypeName) (part : Option NodeId) : Layout :=
  { l with parts := l.parts.insert c part }

theorem part_remembering {c c' : TypeName} {part : Option NodeId} :
    (l.remembering c part).parts[c']? = if c = c' then some part else l.parts[c']? := by
  rw [remembering, Std.ExtTreeMap.getElem?_insert]
  simp [Std.LawfulEqCmp.compare_eq_iff_eq]

@[simp] theorem part_remembering_self {c : TypeName} {part : Option NodeId} :
    (l.remembering c part).parts[c]? = some part := by
  rw [part_remembering, if_pos rfl]

/-- What is known of a part has been remembered just now, or was known before. -/
theorem remembered_or {c c' : TypeName} {part known : Option NodeId}
    (h : (l.remembering c part).parts[c']? = some known) :
    c = c' ∧ part = known ∨ l.parts[c']? = some known := by
  rw [part_remembering] at h
  by_cases heq : c = c'
  · rw [if_pos heq] at h
    exact .inl ⟨heq, Option.some.inj h⟩
  · rw [if_neg heq] at h
    exact .inr h

theorem extends_remembering {c : TypeName} {part : Option NodeId} (h : l.parts[c]? = none) :
    l.Extends (l.remembering c part) where
  node h _ := h
  part := by
    intro c' part' h'
    have hne : c ≠ c' := by
      rintro rfl
      exact absurd (h.symm.trans h') nofun
    rw [part_remembering, if_neg hne]
    exact h'
  size := Nat.le_refl _

theorem Wired.remembering (h : l.Wired keys) {c : TypeName} (hc : l.parts[c]? = none)
    (part : Option NodeId) : (l.remembering c part).Wired keys :=
  fun id node hid => (h id node hid).extend (extends_remembering hc)

theorem Sound.absence (h : l.Sound mapping inside) {c : TypeName} (hc : l.parts[c]? = none)
    (hpart : mapping.hasPart c = false) : (l.remembering c none).Sound mapping inside where
  absent := by
    intro c' h'
    rcases remembered_or h' with ⟨rfl, -⟩ | h'
    · exact hpart
    · exact h.absent h'
  present := by
    intro c' place h'
    rcases remembered_or h' with ⟨-, heq⟩ | h'
    · cases heq
    · exact h.present h'
  opened := by
    intro c' ho
    obtain ⟨place, hplace, hpending⟩ := h.opened ho
    exact ⟨place, (extends_remembering hc).part hplace, hpending⟩
  laid := by
    intro c' place h' ho
    rcases remembered_or h' with ⟨-, heq⟩ | h'
    · cases heq
    · exact (h.laid h' ho).extend (extends_remembering hc)
  distinct := by
    intro c₁ c₂ place h₁ h₂
    rcases remembered_or h₁ with ⟨-, heq⟩ | h₁
    · cases heq
    rcases remembered_or h₂ with ⟨-, heq⟩ | h₂
    · cases heq
    exact h.distinct h₁ h₂
  pending := by
    intro id hid
    obtain ⟨c', ho, hplace⟩ := h.pending hid
    exact ⟨c', ho, (extends_remembering hc).part hplace⟩
  ordered := by
    intro id node hid
    refine (h.ordered hid).imp_left ?_
    rintro ⟨c', hplace⟩
    exact ⟨c', (extends_remembering hc).part hplace⟩

/-! ### A part is opened, and closed again -/

/-- The part of a type has a place that is still to be filled in. -/
def opening (l : Layout) (c : TypeName) : Layout :=
  (l.grown .pending).remembering c (some l.arena.size)

theorem extends_opening {c : TypeName} (h : l.parts[c]? = none) : l.Extends (l.opening c) :=
  (extends_grown l .pending).trans (extends_remembering h)

theorem Wired.opening (h : l.Wired keys) {c : TypeName} (hc : l.parts[c]? = none) :
    (l.opening c).Wired keys := by
  have hgrown : (l.grown .pending).Wired keys := h.grown (wires_of_move?_eq_none rfl)
  exact hgrown.remembering hc _

theorem Sound.opening (h : l.Sound mapping inside) {c : TypeName} (hc : l.parts[c]? = none)
    (hpart : mapping.hasPart c = true) : (l.opening c).Sound mapping (c :: inside) where
  absent := by
    intro c' h'
    rcases remembered_or h' with ⟨-, heq⟩ | h'
    · cases heq
    · exact h.absent h'
  present := by
    intro c' place h'
    rcases remembered_or h' with ⟨rfl, -⟩ | h'
    · exact hpart
    · exact h.present h'
  opened := by
    intro c' ho
    rcases List.mem_cons.mp ho with rfl | ho
    · exact ⟨l.arena.size, part_remembering_self, Arena.get?_push_self l.arena .pending⟩
    · obtain ⟨place, hplace, hpending⟩ := h.opened ho
      exact ⟨place, (extends_opening hc).part hplace, get?_grown_of_some hpending _⟩
  laid := by
    intro c' place h' ho
    rw [List.mem_cons, not_or] at ho
    rcases remembered_or h' with ⟨heq, -⟩ | h'
    · exact absurd heq.symm ho.1
    · exact (h.laid h' ho.2).extend (extends_opening hc)
  distinct := by
    intro c₁ c₂ place h₁ h₂
    -- the new place lies past the arena, where no place has been given out yet
    have hfresh : ∀ {c' : TypeName}, l.parts[c']? ≠ some (some l.arena.size) := fun h' =>
      absurd (h.bound h') (Nat.lt_irrefl _)
    rcases remembered_or h₁ with ⟨rfl, hplace₁⟩ | h₁
    · rcases remembered_or h₂ with ⟨rfl, -⟩ | h₂
      · rfl
      · exact absurd (hplace₁ ▸ h₂) hfresh
    · rcases remembered_or h₂ with ⟨rfl, hplace₂⟩ | h₂
      · exact absurd (hplace₂ ▸ h₁) hfresh
      · exact h.distinct h₁ h₂
  pending := by
    intro id hid
    rcases get?_grown_cases hid with hid | ⟨rfl, -⟩
    · obtain ⟨c', ho, hplace⟩ := h.pending hid
      exact ⟨c', .tail _ ho, (extends_opening hc).part hplace⟩
    · exact ⟨c, List.mem_cons_self, part_remembering_self⟩
  ordered := by
    intro id node hid
    rcases get?_grown_cases hid with hid | ⟨rfl, rfl⟩
    · refine (h.ordered hid).imp_left ?_
      rintro ⟨c', hplace⟩
      exact ⟨c', (extends_opening hc).part hplace⟩
    · exact .inr nofun

/-- The place is filled in. -/
def closing (l : Layout) (place : NodeId) (node : Node) : Layout :=
  { l with arena := l.arena.replace place node }

theorem extends_closing {place : NodeId} {node : Node} (h : l.arena.get? place = some .pending) :
    l.Extends (l.closing place node) where
  node := by
    intro id other hid hother
    rw [closing, Arena.get?_replace_of_ne]
    · exact hid
    · rintro rfl
      cases h.symm.trans hid
      exact hother rfl
  part := id
  size := Nat.le_of_eq (Arena.size_replace _ _ _).symm

theorem Sound.closing {c : TypeName} {place : NodeId} {node : Node}
    (h : l.Sound mapping (c :: inside)) (hc : l.parts[c]? = some (some place)) (ho : c ∉ inside)
    (hnode : node ≠ .pending) (hlaid : (l.closing place node).Part mapping c place) :
    (l.closing place node).Sound mapping inside := by
  obtain ⟨place', hplace', hpending⟩ := h.opened List.mem_cons_self
  cases hplace'.symm.trans hc
  have hext : l.Extends (l.closing place node) := extends_closing hpending
  refine ⟨h.absent, h.present, ?_, ?_, h.distinct, ?_, ?_⟩
  · intro c' ho'
    obtain ⟨other, hother, hpending'⟩ := h.opened (.tail _ ho')
    refine ⟨other, hother, ?_⟩
    rw [Layout.closing, Arena.get?_replace_of_ne]
    · exact hpending'
    · rintro rfl
      exact ho (h.distinct hc hother ▸ ho')
  · intro c' other hother ho'
    by_cases heq : c' = c
    · subst heq
      cases hother.symm.trans hc
      exact hlaid
    · exact (h.laid hother (by simp [heq, ho'])).extend hext
  · intro id hid
    by_cases heq : place = id
    · subst heq
      rw [Layout.closing, Arena.get?_replace_self (Arena.lt_size_of_get? hpending)] at hid
      exact absurd (Option.some.inj hid) hnode
    · rw [Layout.closing, Arena.get?_replace_of_ne heq] at hid
      obtain ⟨c', ho', hplace⟩ := h.pending hid
      rcases List.mem_cons.mp ho' with rfl | ho'
      · cases hplace.symm.trans hc
        exact absurd rfl heq
      · exact ⟨c', ho', hplace⟩
  · intro id other hid
    by_cases heq : place = id
    · subst heq
      exact .inl ⟨c, hc⟩
    · rw [Layout.closing, Arena.get?_replace_of_ne heq] at hid
      exact h.ordered hid

theorem Wired.closing (h : l.Wired keys) {place : NodeId} {node : Node}
    (hpending : l.arena.get? place = some .pending) (hwire : l.Wires keys node) :
    (l.closing place node).Wired keys := by
  have hext : l.Extends (l.closing place node) := extends_closing hpending
  intro id other hid
  by_cases heq : place = id
  · subst heq
    rw [Layout.closing, Arena.get?_replace_self (Arena.lt_size_of_get? hpending)] at hid
    cases hid
    exact hwire.extend hext
  · rw [Layout.closing, Arena.get?_replace_of_ne heq] at hid
    exact (h id other hid).extend hext

/-- A pending part is finished once its mark and the edges from it are laid out. -/
theorem Sound.close_part {c : TypeName} {place : NodeId} {mark ends : List NodeId}
    {embedding : Option NodeId} (h : l.Sound mapping (c :: inside)) (hwired : l.Wired keys)
    (hplace : l.parts[c]? = some (some place)) (ho : c ∉ inside)
    (hmark : l.Marks (mapping.isIndexed c) mark)
    (hends : l.Branches schema .never (embeddingTrie mapping c).branches ends)
    (hjoin : l.Joins ends embedding) :
    l.Extends (l.closing place (.union (mark ++ embedding.toList))) ∧
      (l.closing place (.union (mark ++ embedding.toList))).Sound mapping inside ∧
      (l.closing place (.union (mark ++ embedding.toList))).Wired keys := by
  obtain ⟨place', hplace', hpending⟩ := h.opened List.mem_cons_self
  cases hplace'.symm.trans hplace
  have hext := @extends_closing l place (.union (mark ++ embedding.toList)) hpending
  have hwire : l.Wires keys (.union (mark ++ embedding.toList)) := wires_of_move?_eq_none rfl
  have hunion : (l.closing place (.union (mark ++ embedding.toList))).arena.get? place =
      some (.union (mark ++ embedding.toList)) :=
    Arena.get?_replace_self (Arena.lt_size_of_get? hpending) _
  refine ⟨hext, h.closing hplace ho nofun ?_, hwired.closing hpending hwire⟩
  exact ⟨mark, ends, embedding, hunion, hmark.extend hext, Branches.extend hext hends,
    hjoin.extend hext⟩

/-! ### Parts within parts -/

/-- How many of the types have not been met yet. -/
def unmet (l : Layout) (types : List TypeName) : Nat :=
  types.countP fun c => (l.parts[c]?).isNone

theorem Extends.part_eq_none {l' : Layout} (h : l.Extends l') {c : TypeName}
    (hc : l'.parts[c]? = none) : l.parts[c]? = none := by
  cases hl : l.parts[c]? with
  | none => rfl
  | some part => exact absurd ((h.part hl).symm.trans hc) nofun

theorem Extends.unmet_le {l' : Layout} (h : l.Extends l') (types : List TypeName) :
    l'.unmet types ≤ l.unmet types := by
  refine List.countP_mono_left fun c _ hc => ?_
  rw [Option.isNone_iff_eq_none] at hc ⊢
  exact h.part_eq_none hc

theorem Extends.unmet_lt {l' : Layout} (h : l.Extends l') {types : List TypeName} {c : TypeName}
    (hmem : c ∈ types) (hc : l.parts[c]? = none) {part : Option NodeId}
    (hc' : l'.parts[c]? = some part) : l'.unmet types < l.unmet types := by
  refine List.countP_lt_countP (fun c _ hc => ?_) hmem ?_ ?_
  · rw [Option.isNone_iff_eq_none] at hc ⊢
    exact h.part_eq_none hc
  · rw [hc']
    rfl
  · rw [hc]
    rfl

/-- What holds of a layout while the parts in `inside` are being laid out. -/
structure Growing (mapping : Mapping schema) (keys : TypeName → TypeName → Prop)
    (inside : List TypeName) (l : Layout) : Prop where
  sound : l.Sound mapping inside
  wired : l.Wired keys

/-- With so much depth left, parts can be laid out. -/
structure Deep (mapping : Mapping schema) (keys : TypeName → TypeName → Prop)
    (inside : List TypeName) (depth : Nat) (l : Layout) : Prop
    extends Growing mapping keys inside l where
  room : l.unmet mapping.documents < depth

theorem supports_layPart {depth : Nat}
    (ih : ∀ {l : Layout} (c : TypeName), Deep mapping keys inside depth l →
      Builds (Growing mapping keys inside) l (layPart mapping depth c) fun id? l' =>
        l'.parts[c]? = some id?) :
    Supports (Deep mapping keys inside depth) keys (layPart mapping depth) where
  grown h hlay := ⟨⟨h.sound.grown hlay, h.wired.grown hlay.wires⟩, h.room⟩
  bound h hc := h.sound.bound hc
  part c h := by
    obtain ⟨hext, hgrowing, hc⟩ := ih c h
    exact ⟨hext, ⟨hgrowing, Nat.lt_of_le_of_lt (hext.unmet_le _) h.room⟩, hc⟩

theorem builds_layMark {part : TypeName → StateM Layout (Option NodeId)}
    (hs : Supports I keys part) {indexed : Bool} (hI : I l) :
    Builds I l (layMark indexed) fun mark l' => l'.Marks indexed mark := by
  cases indexed with
  | false => exact .pure hI rfl
  | true =>
      have hlay : l.Layable keys .reindex := ⟨nofun, nofun, wires_of_move?_eq_none rfl⟩
      refine (builds_pushNode hs hI hlay).bind ?_
      rintro id l₁ - hI₁ ⟨hid, -⟩
      exact .pure hI₁ ⟨id, rfl, hid⟩

theorem Builds.get {f : Layout → StateM Layout α} {Q : α → Layout → Prop}
    (h : Builds I l (f l) Q) : Builds I l (MonadState.get >>= f) Q :=
  h

/-- Opening a part and then going on. -/
theorem Builds.open {c : TypeName} {f : NodeId → StateM Layout α} {Q : α → Layout → Prop}
    (hc : l.parts[c]? = none) (h : Builds I (l.opening c) (f l.arena.size) Q) :
    Builds I l (do
      let place ← pushNode .pending
      rememberPart c (some place)
      f place) Q :=
  ⟨(extends_opening hc).trans h.1, h.2⟩

variable (hkeys : ∀ static, ∀ c ∈ schema.concretesUnder static, keys static c)
include hkeys

/-- A part is laid out once all parts within it are, those that are being laid out
already apart. -/
theorem builds_layPart {depth : Nat} (c : TypeName) (hl : Deep mapping keys inside depth l) :
    Builds (Growing mapping keys inside) l (layPart mapping depth c) fun id? l' =>
      l'.parts[c]? = some id? := by
  induction depth generalizing inside l c with
  | zero => exact absurd hl.room (Nat.not_lt_zero _)
  | succ depth ih =>
      rw [layPart]
      refine .get ?_
      cases hc : l.parts[c]? with
      | some known => exact .pure hl.toGrowing hc
      | none =>
          cases hpart : mapping.hasPart c with
          | false =>
              exact ⟨extends_remembering hc, ⟨hl.sound.absence hc hpart, hl.wired.remembering hc _⟩,
                part_remembering_self⟩
          | true =>
              have hmet : (l.opening c).parts[c]? = some (some l.arena.size) :=
                part_remembering_self
              have hless := (extends_opening hc).unmet_lt (of_decide_eq_true hpart) hc hmet
              have hopen : Deep mapping keys (c :: inside) depth (l.opening c) :=
                ⟨⟨hl.sound.opening hc hpart, hl.wired.opening hc⟩,
                  Nat.lt_of_lt_of_le hless (Nat.le_of_lt_succ hl.room)⟩
              have hs : Supports (Deep mapping keys (c :: inside) depth) keys
                  (layPart mapping depth) := supports_layPart fun c' => ih c'
              refine .open hc ?_
              refine (builds_layMark hs hopen).bind ?_
              intro mark l₁ hext₁ hI₁ hmark
              refine (builds_layBranches hs hkeys hI₁ fun _ _ _ hmem =>
                (follows_embeddingTrie mapping c c).next hmem).bind ?_
              intro ends l₂ hext₂ hI₂ hends
              refine (builds_layJoined hs hI₂ fun id hid => hends.lt_size hid).bind ?_
              intro embedding l₃ hext₃ hI₃ hjoin
              have hplace := hext₃.part (hext₂.part (hext₁.part hmet))
              have hinside : c ∉ inside := by
                intro ho
                obtain ⟨place, hold, -⟩ := hl.sound.opened ho
                exact absurd (hc.symm.trans hold) nofun
              obtain ⟨hext, hsound, hwired⟩ := hI₃.sound.close_part hI₃.wired hplace hinside
                (hmark.extend (hext₂.trans hext₃)) (Branches.extend hext₃ hends) hjoin
              exact ⟨hext, ⟨hsound, hwired⟩, hplace⟩

omit hkeys in
theorem Sound.hasPending (h : l.Sound mapping []) : l.arena.hasPending = false := by
  rw [Arena.hasPending, Array.any_eq_false]
  intro id hid hpending
  cases hnode : l.arena.nodes[id] <;> rw [hnode] at hpending <;> try cases hpending
  obtain ⟨_, hin, -⟩ := h.pending (Array.getElem?_eq_some_iff.mpr ⟨hid, hnode⟩)
  cases hin

end Layout

/-! ## Whole trees -/

namespace ChangeTree

variable {schema : Schema} {mapping : Mapping schema}

/-- A tree is what its triggers and the parts of the mapping say. -/
structure Built (mapping : Mapping schema) (filtering : Bool) (type : TypeName) (tree : ChangeTree)
    (l : Layout) : Prop where
  arena : tree.arena = l.arena
  table : tree.table = (sequences mapping type).1
  root : l.Tree schema (if filtering then .always else .never) type [type]
    (.ofSequences (sequences mapping type).2) tree.root
  ownPart : l.parts[type]? = some tree.ownPart
  sound : l.Sound mapping []

/-- The layout that a tree is taken from. -/
def layout (mapping : Mapping schema) (filtering : Bool) (type : TypeName) : Layout :=
  ((lay mapping filtering type).run .empty).2

theorem builds_lay {keys : TypeName → TypeName → Prop}
    (hkeys : ∀ static, ∀ c ∈ schema.concretesUnder static, keys static c)
    (h : mapping.documents.length ≤ schema.concretes.length) (filtering : Bool) {type : TypeName}
    (hroot : keys type type) :
    Layout.Builds (Layout.Growing mapping keys []) .empty (lay mapping filtering type)
      fun roots l =>
        l.Tree schema (if filtering then .always else .never) type [type]
          (.ofSequences (sequences mapping type).2) roots.1 ∧
        l.parts[type]? = some roots.2 := by
  have hs : Layout.Supports (Layout.Deep mapping keys [] (schema.concretes.length + 2)) keys
      (layPart mapping (schema.concretes.length + 2)) :=
    Layout.supports_layPart (Layout.builds_layPart hkeys)
  have hroom : Layout.empty.unmet mapping.documents < schema.concretes.length + 2 := by
    have hle : Layout.empty.unmet mapping.documents ≤ mapping.documents.length :=
      List.countP_le_length
    omega
  have hstart : Layout.Deep mapping keys [] (schema.concretes.length + 2) .empty :=
    ⟨⟨Layout.sound_empty, Layout.wired_empty⟩, hroom⟩
  refine (Layout.builds_layTrie hs hkeys hstart (follows_sequences mapping type type)
    (List.forall_mem_singleton.mpr hroot)).bind ?_
  intro root l₁ _ hI₁ hroot
  refine (hs.part type hI₁).bind ?_
  intro ownPart l₂ hext hI₂ hpart
  exact .pure hI₂.toGrowing ⟨hroot.extend hext, hpart⟩

/-- Every tree gets built, and is taken from its layout. -/
theorem build_layout (h : mapping.documents.length ≤ schema.concretes.length) (filtering : Bool)
    (type : TypeName) :
    ∃ tree, build mapping filtering type = .ok tree ∧
      Built mapping filtering type tree (layout mapping filtering type) := by
  obtain ⟨-, ⟨hsound, -⟩, hroot, hpart⟩ :=
    @builds_lay schema mapping (fun _ _ => True) (fun _ _ _ => trivial) h filtering type trivial
  unfold build layout
  generalize (lay mapping filtering type).run .empty = laid at hsound hroot hpart
  obtain ⟨⟨root, ownPart⟩, l⟩ := laid
  refine ⟨_, if_neg ?_, ⟨rfl, rfl, hroot, hpart, hsound⟩⟩
  rw [hsound.hasPending]
  exact Bool.false_ne_true

theorem build_spec (h : mapping.documents.length ≤ schema.concretes.length) (filtering : Bool)
    (type : TypeName) :
    ∃ tree l, build mapping filtering type = .ok tree ∧ Built mapping filtering type tree l := by
  obtain ⟨tree, hbuild, hbuilt⟩ := build_layout h filtering type
  exact ⟨tree, _, hbuild, hbuilt⟩

theorem built_layout (h : mapping.documents.length ≤ schema.concretes.length) {filtering : Bool}
    {type : TypeName} {tree : ChangeTree} (hbuild : build mapping filtering type = .ok tree) :
    Built mapping filtering type tree (layout mapping filtering type) := by
  obtain ⟨tree', hbuild', hbuilt⟩ := build_layout h filtering type
  cases hbuild.symm.trans hbuild'
  exact hbuilt

theorem built_of_build (h : mapping.documents.length ≤ schema.concretes.length) {filtering : Bool}
    {type : TypeName} {tree : ChangeTree} (hbuild : build mapping filtering type = .ok tree) :
    ∃ l, Built mapping filtering type tree l :=
  ⟨_, built_layout h hbuild⟩

end ChangeTree

end IndexSync
