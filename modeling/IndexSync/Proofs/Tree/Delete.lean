import IndexSync.Proofs.Tree.Smooth

/-!
# What a deletion makes stale

The walk for a deletion starts at the root of the tree and at the object's own document
part.

- `ChangeTree.mem_entities_iff_of_delete` — it finds the stale documents, and those that
  embed the object.
- `ChangeTree.exists_finished_iff_of_delete` — it comes to its end if, and only if, the
  change is smooth and so are the parts of all that embed the object.
-/

namespace IndexSync

open Relation (ReflTransGen)

variable {schema : Schema} {mapping : Mapping schema}

namespace Walk

variable {w : Walk schema} {o : ObjectId}

theorem reachable_append {nodes more : List NodeId} {q : Place} :
    w.Reachable (nodes ++ more) o q ↔ w.Reachable nodes o q ∨ w.Reachable more o q := by
  simp only [Reachable, List.mem_append, or_and_right, exists_or]

end Walk

namespace ChangeTree

variable {w : Walk schema} {tree : ChangeTree} {l : Layout} {filtering : Bool} {type : TypeName}
  {dirty : Option DirtySet} {o : ObjectId} (hbuilt : Built mapping filtering type tree l)
  (harena : w.arena = tree.arena)
include hbuilt harena

/-- From the object's own part, the walk comes to wherever it does from the part of an
object that embeds it. -/
theorem comesTo_ownPart (hm : schema.Coherent) (hclosed : mapping.Closed)
    (ho : w.store.runtimeType o = .ok type) {P : Place → Prop} {y : ObjectId} {d : TypeName}
    (hy : ReflTransGen (mapping.Embeds w.store) o y) (hd : w.store.runtimeType y = .ok d)
    (hpart : mapping.hasPart d = true ∧ l.PartComesTo w d y P) :
    ∃ u, tree.ownPart = some u ∧ w.ComesTo (u, .object o) P := by
  have hw := harena.trans hbuilt.arena
  obtain ⟨-, hown⟩ := Layout.partComesTo_of_embeds hw hbuilt.sound hm hclosed hy hd hpart ho
  exact hown _ hbuilt.ownPart

/-- Wherever a walk from the object's own part is, it is in the part of an object that
embeds it. -/
theorem trace_ownPart (hm : schema.Coherent) (ho : w.store.runtimeType o = .ok type) {q : Place}
    (hq : w.Reachable tree.ownPart.toList o q) :
    ∃ y, ReflTransGen (mapping.Embeds w.store) o y ∧ w.AtPart mapping y q := by
  obtain ⟨u, hu, n, hreach⟩ := hq
  have hplace : l.parts[type]? = some (some u) := by
    rw [hbuilt.ownPart, Option.mem_toList.mp hu]
  exact Layout.part_trace (harena.trans hbuilt.arena) hbuilt.sound hm ho hplace hreach

omit hbuilt harena in
theorem isLive_of_embeds {s : ObjectStore schema} {y : ObjectId} (ho : s.runtimeType o = .ok type)
    (hy : ReflTransGen (mapping.Embeds s) o y) : ∃ d, s.runtimeType y = .ok d := by
  cases hy with
  | refl => exact ⟨type, ho⟩
  | tail _ hlast => exact hlast.isLive

variable (hdirty : w.dirty = dirty.map tree.table.hitBy) (hm : schema.Coherent)
include hdirty hm

theorem exists_finished_of_smoothParts (ho : w.store.runtimeType o = .ok type)
    (hsmooth : mapping.Smooth w.store o (if filtering then dirty else none))
    (hparts : ∀ y, ReflTransGen (mapping.Embeds w.store) o y → mapping.SmoothPart w.store y) :
    ∃ s, w.run (tree.root.toList ++ tree.ownPart.toList) o = (.finished, s) := by
  refine Walk.exists_finished (shallow_of_built hbuilt harena) fun q hq => ?_
  rcases Walk.reachable_append.mp hq with hq | hq
  · exact exists_followed_of_root hbuilt harena hdirty hm ho hsmooth hq
  · obtain ⟨y, hy, hpart⟩ := trace_ownPart hbuilt harena hm ho hq
    exact hpart.exists_followed (hparts y hy)

variable (hclosed : mapping.Closed) (ho : w.store.runtimeType o = .ok type)
include hclosed ho

/-- The walk for a deletion comes to its end if, and only if, the change is smooth and
so is the part of every object that embeds the deleted one. -/
theorem exists_finished_iff_of_delete :
    (∃ s, w.run (tree.root.toList ++ tree.ownPart.toList) o = (.finished, s)) ↔
      mapping.Smooth w.store o (if filtering then dirty else none) ∧
        ∀ y, ReflTransGen (mapping.Embeds w.store) o y → mapping.SmoothPart w.store y := by
  refine ⟨?_, fun h => exists_finished_of_smoothParts hbuilt harena hdirty hm ho h.1 h.2⟩
  rintro ⟨s, hrun⟩
  refine ⟨smooth_of_finished hbuilt harena hdirty hm hclosed ho
    (List.subset_append_left _ _) hrun, fun y hy => ?_⟩
  obtain ⟨d, hd⟩ := isLive_of_embeds ho hy
  refine Walk.smoothPart_of_finished (harena.trans hbuilt.arena) hbuilt.sound hm hclosed hrun hd
    fun P hpart => ?_
  obtain ⟨u, hu, hcomes⟩ := comesTo_ownPart hbuilt harena hm hclosed ho hy hd hpart
  exact ⟨u, by simp [hu], hcomes⟩

/-- A finished walk for a deletion has found the stale documents and those that embed the
deleted object, its own among them. -/
theorem mem_entities_iff_of_delete {s : Walk.State}
    (hrun : w.run (tree.root.toList ++ tree.ownPart.toList) o = (.finished, s)) (r : EntityRef) :
    r ∈ s.findings.entities ↔
      ∃ y, (Stale mapping w.store o (if filtering then dirty else none) y ∨
        ReflTransGen (mapping.Embeds w.store) o y) ∧
        mapping.HasDocument w.store y ∧ w.store.reference y = .ok r := by
  have hw := harena.trans hbuilt.arena
  constructor
  · intro hr
    obtain ⟨⟨id, f⟩, hq, hfind⟩ := (Walk.mem_entities_iff hrun r).mp hr
    rcases Walk.reachable_append.mp hq with hq | hq
    · obtain ⟨y, hy, hdoc⟩ := exists_stale_of_finds hbuilt harena hdirty hm ho hq hfind
      exact ⟨y, .inl hy, hdoc⟩
    · obtain ⟨y, hy, hpart⟩ := trace_ownPart hbuilt harena hm ho hq
      exact ⟨y, .inr hy, hpart.found (Walk.reindex_of_finds hfind) hfind⟩
  · rintro ⟨y, hy, hdoc, href⟩
    obtain ⟨r', hr', href'⟩ : ∃ r' ∈ s.findings.entities, w.store.reference y = .ok r' := by
      rcases hy with hy | hy
      · obtain ⟨d, hd⟩ := hy.isLive
        have hmark := Layout.partComesTo_mark hw hbuilt.sound hclosed hd hdoc
        obtain ⟨u, hu, hcomes⟩ := comesTo_stale hbuilt harena hdirty hm hclosed ho hy hd hmark
        exact Walk.exists_found_of_comesTo hrun (by simp [hu]) hcomes
      · obtain ⟨d, hd⟩ := isLive_of_embeds ho hy
        have hmark := Layout.partComesTo_mark hw hbuilt.sound hclosed hd hdoc
        obtain ⟨u, hu, hcomes⟩ := comesTo_ownPart hbuilt harena hm hclosed ho hy hd hmark
        exact Walk.exists_found_of_comesTo hrun (by simp [hu]) hcomes
    cases href.symm.trans href'
    exact hr'

end ChangeTree

end IndexSync
