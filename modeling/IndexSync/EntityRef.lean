import IndexSync.ObjectStore.Basic

/-!
# Entity references

What an index is told about: the type of an entity together with its identity.
References are ordered by type name, then by identity, and every identifier
comes before every bare instance.
-/

namespace IndexSync

open Std

namespace Identity

def render : Identity → String
  | id value => value.render
  | object o => o.text

protected def compare : Identity → Identity → Ordering
  | id a, id b => Ord.compare a b
  | id _, object _ => .lt
  | object _, id _ => .gt
  | object a, object b => instOrdNat.compare a b

instance : Ord Identity := ⟨Identity.compare⟩

instance : TransOrd Identity where
  eq_swap {a b} :=
    match a, b with
    | id x, id y => (OrientedCmp.eq_swap : Ord.compare x y = (Ord.compare y x).swap)
    | object x, object y =>
      (OrientedCmp.eq_swap : instOrdNat.compare x y = (instOrdNat.compare y x).swap)
    | id _, object _ => rfl
    | object _, id _ => rfl
  isLE_trans {a b c} hab hbc :=
    match a, b, c with
    | id x, id y, id z => @TransCmp.isLE_trans Value Ord.compare _ x y z hab hbc
    | object x, object y, object z => @TransCmp.isLE_trans Nat Ord.compare _ x y z hab hbc
    | id _, _, object _ => rfl
    | object _, id _, _ => nomatch (hab : false = true)
    | _, object _, id _ => nomatch (hbc : false = true)

instance : LawfulEqOrd Identity where
  compare_self {a} :=
    match a with
    | id x => (ReflCmp.compare_self : Ord.compare x x = .eq)
    | object x => (ReflCmp.compare_self : instOrdNat.compare x x = .eq)
  eq_of_compare {a b} h :=
    match a, b with
    | id x, id y => congrArg id (@LawfulEqCmp.eq_of_compare Value Ord.compare _ x y h)
    | object x, object y => congrArg object (@LawfulEqCmp.eq_of_compare Nat Ord.compare _ x y h)
    | id _, object _ => nomatch (h : Ordering.lt = .eq)
    | object _, id _ => nomatch (h : Ordering.gt = .eq)

end Identity

structure EntityRef where
  type : TypeName
  identity : Identity
deriving DecidableEq

namespace EntityRef

def render (r : EntityRef) : String :=
  r.type ++ "(" ++ r.identity.render ++ ")"

protected def compare (a b : EntityRef) : Ordering :=
  (Ord.compare a.type b.type).then (Ord.compare a.identity b.identity)

instance : Ord EntityRef := ⟨EntityRef.compare⟩

instance : TransOrd EntityRef where
  eq_swap {a b} := by
    show (Ord.compare a.type b.type).then _ = ((Ord.compare b.type a.type).then _).swap
    rw [Ordering.swap_then, ← OrientedCmp.eq_swap, ← OrientedCmp.eq_swap]
  isLE_trans {a b c} hab hbc := by
    replace hab : ((Ord.compare a.type b.type).then (Ord.compare a.identity b.identity)).isLE := hab
    replace hbc : ((Ord.compare b.type c.type).then (Ord.compare b.identity c.identity)).isLE := hbc
    show ((Ord.compare a.type c.type).then (Ord.compare a.identity c.identity)).isLE
    rw [Ordering.isLE_then_iff_or] at hab hbc ⊢
    rcases hab with hab | ⟨hab, hab'⟩
    · rcases hbc with hbc | ⟨hbc, _⟩
      · exact .inl (TransCmp.lt_trans hab hbc)
      · exact .inl (TransCmp.lt_of_lt_of_eq hab hbc)
    · rcases hbc with hbc | ⟨hbc, hbc'⟩
      · exact .inl (TransCmp.lt_of_eq_of_lt hab hbc)
      · exact .inr ⟨TransCmp.eq_trans hab hbc, TransCmp.isLE_trans hab' hbc'⟩

instance : LawfulEqOrd EntityRef where
  compare_self {a} := by
    show (Ord.compare a.type a.type).then (Ord.compare a.identity a.identity) = .eq
    simp
  eq_of_compare {a b} h := by
    replace h : (Ord.compare a.type b.type).then (Ord.compare a.identity b.identity) = .eq := h
    rw [Ordering.then_eq_eq] at h
    obtain ⟨ht, hi⟩ := h
    cases a
    cases b
    cases LawfulEqCmp.eq_of_compare ht
    cases LawfulEqCmp.eq_of_compare hi
    rfl

end EntityRef

/-- The entities that a change calls to be indexed again. -/
abbrev EntitySet := SortedSet EntityRef

/-- The reference of a live object. -/
def ObjectStore.reference {schema : Schema} (s : ObjectStore schema) (id : ObjectId) :
    Except DataError EntityRef := do
  return { type := ← s.runtimeType id, identity := ← s.identity id }

end IndexSync
