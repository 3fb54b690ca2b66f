import IndexSync.Proofs.Tree.Delete
import IndexSync.Proofs.Typing.Chains

/-!
# Walks through conforming stores

- `Mapping.smoothPart_of_conforms`, `Mapping.smooth_of_conforms` — over a conforming store,
  nothing goes wrong on the way along a typed trigger, or in a document part.
- `ChangeTree.exists_finished` — the walks of a built tree come to their end.
-/

namespace IndexSync

variable {schema : Schema} {mapping : Mapping schema}

section

variable {s : ObjectStore schema} (hs : s.Conforms) (hm : schema.Coherent) (hagree : schema.Agrees)
include hs hm hagree

/-- On the way along sequences that take the object, nothing goes wrong. -/
theorem Mapping.Attempts.safe {hit all : List Move → Prop} {o : ObjectId} {move : Move} {v : Value}
    (hall : ∀ ms, hit ms → ∃ type result, s.IsA o type ∧ movesTake schema ms (.object type) result)
    (h : mapping.Attempts s hit all (.ref o) move v) : move.Safe s v := by
  obtain ⟨before, ⟨rest, hhit⟩, -, hlead⟩ := h
  obtain ⟨type, result, ho, htake⟩ := hall _ hhit
  have hway : before ++ [move] <+: before ++ move :: rest := ⟨rest, by simp⟩
  exact safe_of_movesLead hs hm hagree hway htake (.ref ho) rfl hlead

namespace Mapping

variable (hid : schema.Identifies) (htyped : mapping.Typed)
include hid htyped

/-- In the document part of an object, nothing goes wrong. -/
theorem smoothPart_of_conforms (x : ObjectId) : mapping.SmoothPart s x where
  safe move v hattempt := by
    refine hattempt.safe hs hm hagree ?_
    rintro _ ⟨e, he, hx, rfl⟩
    obtain ⟨result, htake⟩ := htyped.embedding e he
    exact ⟨e.target, result, hx, htake⟩
  reference := by
    rintro ⟨c, hc, -⟩
    exact ObjectStore.exists_reference hm hid hc

/-- After a change, nothing goes wrong. -/
theorem smooth_of_conforms (o : ObjectId) (dirty : Option DirtySet) : mapping.Smooth s o dirty where
  safe move v hattempt := by
    refine hattempt.safe hs hm hagree ?_
    rintro _ ⟨t, ht, ho, -, rfl⟩
    obtain ⟨result, htake⟩ := htyped.trigger t ht
    exact ⟨t.changed, result, ho, htake⟩
  part x _ := smoothPart_of_conforms hs hm hagree hid htyped x

end Mapping

end

namespace ChangeTree

variable {w : Walk schema} {tree : ChangeTree} {l : Layout} {filtering : Bool} {type : TypeName}
  {dirty : Option DirtySet} {o : ObjectId} (hbuilt : Built mapping filtering type tree l)
  (harena : w.arena = tree.arena) (hs : w.store.Conforms) (hm : schema.Coherent)
  (hagree : schema.Agrees) (hid : schema.Identifies) (htyped : mapping.Typed)
  (ho : w.store.runtimeType o = .ok type)
include hbuilt harena hs hm hagree hid htyped ho

/-- The walk from the root comes to its end, and so does the one that takes in the
object's own document part. -/
theorem exists_finished (hdirty : w.dirty = dirty.map tree.table.hitBy) :
    (∃ s, w.run tree.root.toList o = (.finished, s)) ∧
      ∃ s, w.run (tree.root.toList ++ tree.ownPart.toList) o = (.finished, s) := by
  have hsmooth := Mapping.smooth_of_conforms hs hm hagree hid htyped o
    (if filtering then dirty else none)
  refine ⟨exists_finished_of_smooth hbuilt harena hdirty hm ho hsmooth,
    exists_finished_of_smoothParts hbuilt harena hdirty hm ho hsmooth fun y _ => ?_⟩
  exact Mapping.smoothPart_of_conforms hs hm hagree hid htyped y

end ChangeTree

end IndexSync
