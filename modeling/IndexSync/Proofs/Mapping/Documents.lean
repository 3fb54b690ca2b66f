import Mathlib.Logic.Relation
import IndexSync.Mapping.Compile
import IndexSync.Dirty.DirtySet
import IndexSync.Proofs.Leads

/-!
# What documents are made of

What a document shows, read off the declarations and the objects, without triggers
or chains.

- `Inlined`, `Declares`, `DependsOn` — the document part of a type: its own
  declarations, and those of the embeddables that it embeds.
- `Segment.Leads`, `segmentsLead`, `ComesTo` — a path walked forward, segment by
  segment.
- `Crosses` — the associations that declared paths cross, with the backlinks over
  them.
- `Backlink.Covers`, `Backlink.Retraces` — a backlink and its association agree in
  the store, one way and the other.
- `Touched` — the objects whose own document part a change may alter.
- `DocumentEmbeds`, `Documented` — the entities whose document part another one
  embeds, and the objects that have a document.
-/

namespace IndexSync

variable {schema : Schema}

/-! ## The document part of a type -/

section

variable (m : Schema) (ds : Declarations) (root : TypeName)

/-- The declarations that make up the document part of `root`, each at its place. -/
inductive Inlined : (place : String) → PartDecl → Prop
  | own {d : PartDecl} : d ∈ ds.types → m.isEntity d.name = true → d.name = root → Inlined "" d
  | embedded {place path : String} {d d' : PartDecl} {steps : List TypedStep} :
      Inlined place d → path ∈ d.embed →
      elaborateText m root (below place path) .objects = .ok steps →
      m.isEntity (endOf root steps) = false → d' ∈ ds.types → m.isEntity d'.name = false →
      m.fits (endOf root steps) d'.name = true → Inlined (below place path) d'

/-- The declared paths of the document part of `root`.  The last step of a path crosses
an association if the path embeds an entity. -/
inductive Declares : (text : String) → (steps : List TypedStep) → (crossEnd : Bool) → Prop
  | read {place path : String} {d : PartDecl} {steps : List TypedStep} :
      Inlined m ds root place d → path ∈ d.read →
      elaborateText m root (below place path) .anything = .ok steps →
      Declares (below place path) steps false
  | embed {place path : String} {d : PartDecl} {steps : List TypedStep} :
      Inlined m ds root place d → path ∈ d.embed →
      elaborateText m root (below place path) .objects = .ok steps →
      Declares (below place path) steps (m.isEntity (endOf root steps))

/-- The document part of `root` depends on entities from which `link` leads to it. -/
def DependsOn (other : Dependency) (link : Backlink) : Prop :=
  ∃ place d, Inlined m ds root place d ∧ other ∈ d.other ∧ dependencyLink m root other = .ok link

end

/-- With nothing declared but one entity type, there is nothing to be inlined. -/
theorem inlined_iff_of_single {m : Schema} {ds : Declarations} {part : PartDecl}
    (htypes : ds.types = [part]) (hentity : m.isEntity part.name = true) {root : TypeName}
    {place : String} {d : PartDecl} :
    Inlined m ds root place d ↔ root = part.name ∧ place = "" ∧ d = part := by
  constructor
  · intro h
    induction h with
    | own hd _ hname =>
        rw [htypes] at hd
        cases List.mem_singleton.mp hd
        exact ⟨hname.symm, rfl, rfl⟩
    | embedded _ _ _ _ hd hnot _ _ =>
        rw [htypes] at hd
        cases List.mem_singleton.mp hd
        cases hnot.symm.trans hentity
  · rintro ⟨rfl, rfl, rfl⟩
    exact .own (htypes ▸ List.mem_cons_self) hentity rfl

/-! ## Segments -/

section

variable (m : Schema) (ds : Declarations)

/-- The segments of the paths that documents show. -/
inductive Shows : List Segment → Prop
  | declared {root : TypeName} {text : String} {steps : List TypedStep} {crossEnd : Bool} :
      Declares m ds root text steps crossEnd → Shows (cut m crossEnd root steps)
  | used {root : TypeName} {other : Dependency} {link : Backlink} {path : String}
      {steps : List TypedStep} : DependsOn m ds root other link → path ∈ other.used →
      elaborateText m other.type path .anything = .ok steps →
      Shows (cut m false other.type steps)

/-- The backlink over the association that a segment crosses, along the inverse side
declared for it. -/
def Segment.Backs (seg : Segment) (link : Backlink) : Prop :=
  ∃ table, InverseTable.register m ds.inverses = .ok table ∧
    ∃ side ∈ table.nearest? m seg.owner seg.names,
      ∃ target ∈ seg.target, linkAlong m seg.owner seg.names target side = .ok link

/-- The associations that the paths cross, with the backlinks over them. -/
def Crosses (seg : Segment) (link : Backlink) : Prop :=
  ∃ segs, Shows m ds segs ∧ seg ∈ segs ∧ seg.Backs m ds link

end

variable (s : ObjectStore schema)

/-- A segment leads from an instance of its owner to an entity of the type that it
crosses to. -/
structure Segment.Leads (seg : Segment) (o x : ObjectId) : Prop where
  start : s.IsA o seg.owner
  steps : stepsLead s seg.steps (.ref o) (.ref x)
  finish : ∃ target ∈ seg.target, s.IsA x target

/-- Wherever a segment leads, the backlink leads back. -/
def Backlink.Covers (link : Backlink) (seg : Segment) : Prop :=
  ∀ o x, seg.Leads s o x → link.Leads s x o

/-- From an entity that the segment could cross to, the backlink goes back only to
objects from which the segment leads there. -/
def Backlink.Retraces (link : Backlink) (seg : Segment) : Prop :=
  ∀ o x, (∀ target ∈ seg.target, s.IsA x target) → link.Leads s x o →
    stepsLead s seg.steps (.ref o) (.ref x)

/-- Segments one after another. -/
def segmentsLead : List Segment → ObjectId → ObjectId → Prop
  | [], o, x => o = x
  | seg :: rest, o, x => ∃ y, seg.Leads s o y ∧ segmentsLead rest y x

/-- Walked from `x`, the segments come to the start of `seg` at `y`. -/
inductive ComesTo : (segs : List Segment) → (x : ObjectId) → (seg : Segment) → (y : ObjectId) → Prop
  | here {seg : Segment} {rest : List Segment} {x : ObjectId} : s.IsA x seg.owner →
      ComesTo (seg :: rest) x seg x
  | later {first seg : Segment} {rest : List Segment} {x y z : ObjectId} : first.Leads s x y →
      ComesTo rest y seg z → ComesTo (first :: rest) x seg z

/-! ## Changes -/

/-- A change at the paths `dirty`, or at any path, overlaps these property names. -/
def Alters (dirty : Option DirtySet) (names : String) : Prop :=
  ∀ d ∈ dirty, d.hits names = true

variable (ds : Declarations) (o : ObjectId) (dirty : Option DirtySet)

/-- Walked from `x`, a segment starts at the changed object and the change overlaps
it, or an association is crossed whose far end is the changed object and the change
overlaps its inverse path. -/
def TouchesAlong (segs : List Segment) (x : ObjectId) : Prop :=
  ∃ seg y, ComesTo s segs x seg y ∧
    (y = o ∧ Alters dirty seg.names ∨
      ∃ link, seg.Backs schema ds link ∧ seg.Leads s y o ∧ Alters dirty link.names)

/-- The objects whose own document part a change of `o` may alter. -/
inductive Touched (x : ObjectId) : Prop
  | path {root : TypeName} {text : String} {steps : List TypedStep} {crossEnd : Bool} :
      s.IsA x root → Declares schema ds root text steps crossEnd →
      TouchesAlong s ds o dirty (cut schema crossEnd root steps) x → Touched x
  | inverse {root : TypeName} {other : Dependency} {link : Backlink} : s.IsA x root →
      DependsOn schema ds root other link → s.IsA o other.type → link.Leads s o x →
      Alters dirty link.names → Touched x
  | used {root : TypeName} {other : Dependency} {link : Backlink} {path : String}
      {steps : List TypedStep} {y : ObjectId} : s.IsA x root →
      DependsOn schema ds root other link → path ∈ other.used →
      elaborateText schema other.type path .anything = .ok steps → link.Leads s y x →
      TouchesAlong s ds o dirty (cut schema false other.type steps) y → Touched x

/-- The document part of `x` embeds that of `y`. -/
def DocumentEmbeds (x y : ObjectId) : Prop :=
  ∃ root text steps, s.IsA x root ∧ Declares schema ds root text steps true ∧
    segmentsLead s (cut schema true root steps) x y

/-- Instances of a type that is declared as indexed have a document. -/
def Documented (x : ObjectId) : Prop :=
  ∃ d ∈ ds.types, d.indexed = true ∧ s.IsA x d.name

end IndexSync
