import Mathlib.Data.List.Perm.Subperm
import IndexSync.Proofs.Mapping.Closure
import IndexSync.Proofs.Mapping.Recursion
import IndexSync.Proofs.Path.Below
import IndexSync.Proofs.Path.Spelled
import IndexSync.Sample.Annexes

/-!
# Inlining ends

Where a document embeds an embeddable, the declarations of the embeddable are inlined, and so
on.  The text of the path grows with every embeddable, but none of them is entered while it is
being inlined, so there are never more of them than there are types.

- `PartDecl.Embeds`, `EmbedsThrough` — embeddables inside one another, read off the
  declarations.  Each path is read on the embeddable that declares it, not on the root.
- `Inlining` — what is inlined at which place, inside which embeddables.
  `Inlining.length_le` bounds the embeddables, so the bound of `partFacts` is never met
  (`partFacts_eq_of_inlining`).
- `part_of_embedsThrough`, `embedsThrough_of_recursive` — what was accepted has no embeddable
  inside itself, and what was refused for that reason has one.
- `Mapping.compile_inlines` — compiling as a whole.
-/

namespace IndexSync

variable {m : Schema} {ds : Declarations} {t : InverseTable} {root : TypeName}

/-- Read on objects of type `type`, some path that the part embeds leads to embeddables of type
`target`. -/
def PartDecl.Embeds (m : Schema) (d : PartDecl) (type target : TypeName) : Prop :=
  ∃ path ∈ d.embed, ∃ steps, elaborateText m type path .objects = .ok steps ∧
    endOf type steps = target ∧ m.isEntity target = false

section

variable (m : Schema) (ds : Declarations) (root : TypeName)

/-- Declarations of the entity type `root` embed the first embeddable, those inlined into it
the next one, and so on to `target`. -/
inductive EmbedsThrough : (through : List TypeName) → (target : TypeName) → Prop
  | own {d : PartDecl} {target : TypeName} : d ∈ ds.types → m.isEntity d.name = true →
      d.name = root → d.Embeds m root target → EmbedsThrough [] target
  | inlined {through : List TypeName} {last target : TypeName} {d : PartDecl} :
      EmbedsThrough through last → d ∈ inlinedInto m ds last → d.Embeds m last target →
      EmbedsThrough (through ++ [last]) target

/-- The declarations `d` are inlined at `place`, inside the embeddables `inside`. -/
inductive Inlining : (place : String) → (inside : List TypeName) → PartDecl → Prop
  | own {d : PartDecl} : d ∈ ds.types → m.isEntity d.name = true → d.name = root →
      Inlining "" [] d
  | embedded {place path : String} {inside : List TypeName} {d d' : PartDecl}
      {steps : List TypedStep} : Inlining place inside d → path ∈ d.embed →
      elaborateText m root (below place path) .objects = .ok steps →
      m.isEntity (endOf root steps) = false → endOf root steps ∉ inside →
      d' ∈ inlinedInto m ds (endOf root steps) →
      Inlining (below place path) (inside ++ [endOf root steps]) d'

end

/-- Compiling with other bounds: on embeddables inside one another, and on rounds of
saturation. -/
def Mapping.compileWithin (depth rounds : Nat) (m : Schema) (ds : Declarations) :
    Except MappingError (Mapping m) := do
  ds.types.forM (checkPart m)
  let table ← InverseTable.register m ds.inverses
  let facts ← Facts.collect (ds.types.filter fun d => m.isEntity d.name) fun d =>
    partFacts m ds table d.name depth "" [] d
  let documents := saturate.go m facts.embeddings rounds (indexedConcretes m ds)
  return {
    triggers := facts.triggers.eraseDups.filter fun t => leadsToPart m documents t.landing
    embeddings := facts.embeddings.filter fun e => leadsToPart m documents e.landing
    indexed := indexedConcretes m ds
    documents }

/-! ## Places -/

theorem below_of_elaborateText {place : String} {goal : PathGoal} {steps : List TypedStep}
    (h : elaborateText m root place goal = .ok steps) (path : String) :
    below place path = place ++ "." ++ path := by
  obtain ⟨outer, houter, -⟩ := elaborateText_eq_ok_iff.mp h
  have hne : place ≠ "" := by
    rintro rfl
    cases houter
  rw [below, if_neg]
  rwa [String.isEmpty_iff]

theorem declares_endOf {text : String} {steps : List TypedStep}
    (h : elaborateText m root text .objects = .ok steps) :
    m.declares (endOf root steps) = true := by
  obtain ⟨path, hpath, hsteps⟩ := elaborateText_eq_ok_iff.mp h
  have hne := (Path.parse_eq_ok_iff.mp (parsePath_eq_ok_iff.mp hpath)).1.nonempty
  have hsteps' := Path.ne_nil_of_elaborateSteps hsteps hne
  obtain ⟨last, hlast⟩ : ∃ last, steps.getLast? = some last :=
    Option.ne_none_iff_exists'.mp (by simpa using hsteps')
  obtain ⟨type, htype⟩ := Option.isSome_iff_exists.mp (target?_isSome_of_elaborateText h last hlast)
  obtain ⟨part, -, htypes⟩ :=
    (Path.types_of_elaborateSteps hsteps).exists_left (List.mem_of_getLast? hlast)
  have hend : endOf root steps = type := by
    simp [endOf, hlast, htype]
  rw [hend]
  exact htypes.declared type htype

/-! ## The embeddables that are being inlined -/

namespace Inlining

variable {place : String} {inside : List TypeName} {d : PartDecl}

theorem nodup (h : Inlining m ds root place inside d) : inside.Nodup := by
  induction h with
  | own => exact List.nodup_nil
  | embedded _ _ _ _ hinside _ ih =>
      rw [← List.concat_eq_append]
      exact ih.concat hinside

theorem subset (h : Inlining m ds root place inside d) : inside ⊆ m.typeNames := by
  induction h with
  | own => exact List.nil_subset _
  | embedded _ _ hsteps _ _ _ ih =>
      have hend := Schema.mem_typeNames_iff.mpr (declares_endOf hsteps)
      exact List.append_subset.mpr ⟨ih, List.cons_subset.mpr ⟨hend, List.nil_subset _⟩⟩

/-- There are no more embeddables inside one another than there are types. -/
theorem length_le (h : Inlining m ds root place inside d) : inside.length ≤ m.size := by
  have hle := (h.nodup.subperm h.subset).length_le
  rwa [Schema.typeNames, List.length_map] at hle

end Inlining

/-! ## Bounds -/

/-- Declarations are inlined only where a path leads to an embeddable that is not being
inlined. -/
theorem embedFacts_congr
    {inline inline' : String → List TypeName → PartDecl → Except MappingError Facts}
    {place path : String} {inside : List TypeName}
    (h : ∀ steps, elaborateText m root (below place path) .objects = .ok steps →
      m.isEntity (endOf root steps) = false → endOf root steps ∉ inside →
      ∀ d ∈ inlinedInto m ds (endOf root steps),
        inline (below place path) (inside ++ [endOf root steps]) d =
          inline' (below place path) (inside ++ [endOf root steps]) d) :
    embedFacts m ds t root inline place inside path =
      embedFacts m ds t root inline' place inside path := by
  refine Except.bind_congr_of_ok fun steps hsteps => ?_
  dsimp only
  split
  · rfl
  · rename_i hend
    refine Except.bind_congr_of_ok fun found _ => ?_
    split
    · rfl
    · rename_i hinside
      rw [Facts.collect_congr (h steps hsteps (Bool.eq_false_iff.mpr hend) hinside)]

/-- A bound that leaves room for all types is as good as any other one. -/
theorem partFacts_eq_of_inlining {depth depth' : Nat} {place : String} {inside : List TypeName}
    {d : PartDecl} (h : Inlining m ds root place inside d)
    (hdepth : m.size < depth + inside.length) (hdepth' : m.size < depth' + inside.length) :
    partFacts m ds t root depth place inside d = partFacts m ds t root depth' place inside d := by
  induction depth generalizing depth' place inside d with
  | zero =>
      have hle := h.length_le
      omega
  | succ depth ih =>
      have hle := h.length_le
      obtain ⟨depth', rfl⟩ : ∃ n, depth' = n + 1 := ⟨depth' - 1, by omega⟩
      have hembed : ∀ path ∈ d.embed,
          embedFacts m ds t root (partFacts m ds t root depth) place inside path =
            embedFacts m ds t root (partFacts m ds t root depth') place inside path := by
        intro path hpath
        apply embedFacts_congr
        intro steps hsteps hend hinside d' hd'
        have hnext := h.embedded hpath hsteps hend hinside hd'
        have hlength : (inside ++ [endOf root steps]).length = inside.length + 1 := by simp
        exact ih hnext (by omega) (by omega)
      rw [partFacts, partFacts, Facts.collect_congr hembed]

/-! ## What is accepted -/

/-- Where declarations were inlined, the embeddables that they embed were inlined, too. -/
theorem inlined_of_partFacts {depth : Nat} {place path : String} {inside : List TypeName}
    {d : PartDecl} {G : Facts} (h : partFacts m ds t root depth place inside d = .ok G)
    (hpath : path ∈ d.embed) {steps : List TypedStep}
    (hsteps : elaborateText m root (below place path) .objects = .ok steps)
    (hend : m.isEntity (endOf root steps) = false) :
    endOf root steps ∉ inside ∧ ∀ d' ∈ inlinedInto m ds (endOf root steps), ∃ depth' G',
      partFacts m ds t root depth' (below place path) (inside ++ [endOf root steps]) d' =
        .ok G' := by
  cases depth with
  | zero => cases h
  | succ depth =>
      obtain ⟨R, E, O, -, hE, -, -⟩ := partFacts_succ_eq_ok h
      obtain ⟨G', hG', -⟩ := Facts.exists_of_collect hE hpath
      obtain ⟨steps', _, _, hsteps', -, ⟨hentity, -⟩ | ⟨-, hinside, I, hI, -⟩⟩ :=
        embedFacts_eq_ok hG'
      · cases hsteps.symm.trans hsteps'
        rw [hend] at hentity
        cases hentity
      · cases hsteps.symm.trans hsteps'
        refine ⟨hinside, fun d' hd' => ?_⟩
        obtain ⟨H, hH, -⟩ := Facts.exists_of_collect hI hd'
        exact ⟨depth, H, hH⟩

/-- In a mapping that is accepted, the declarations of every embeddable were inlined, and it
was not entered from inside itself. -/
theorem part_of_embedsThrough {F : Facts} (hfacts : Mapping.facts m ds = .ok F)
    (ht : InverseTable.register m ds.inverses = .ok t) {through : List TypeName}
    {target : TypeName} (h : EmbedsThrough m ds root through target) :
    (through ++ [target]).Nodup ∧ ∃ place steps,
      elaborateText m root place .objects = .ok steps ∧ endOf root steps = target ∧
      ∀ d ∈ inlinedInto m ds target, ∃ depth G,
        partFacts m ds t root depth place (through ++ [target]) d = .ok G := by
  induction h with
  | @own d target hd hentity hname hembeds =>
      obtain ⟨t', ht', -, hcollect⟩ := facts_eq_ok hfacts
      cases ht.symm.trans ht'
      subst hname
      obtain ⟨G, hG, -⟩ := Facts.exists_of_collect hcollect (List.mem_filter.mpr ⟨hd, hentity⟩)
      obtain ⟨path, hpath, steps, hsteps, rfl, hend⟩ := hembeds
      obtain ⟨-, hinlined⟩ := inlined_of_partFacts hG hpath hsteps hend
      exact ⟨List.nodup_singleton _, path, steps, hsteps, rfl, hinlined⟩
  | @inlined through last target d _ hd hembeds ih =>
      obtain ⟨hnodup, place, front, hplace, rfl, hinlined⟩ := ih
      obtain ⟨depth, G, hG⟩ := hinlined d hd
      obtain ⟨path, hpath, back, hback, rfl, hend⟩ := hembeds
      have hwhole : elaborateText m root (below place path) .objects = .ok (front ++ back) := by
        rw [below_of_elaborateText hplace]
        exact (elaborateText_dot_eq_ok_iff hplace).mpr ⟨back, hback, rfl⟩
      rw [← endOf_append_of_elaborateText hback] at hend ⊢
      obtain ⟨hinside, hinlined'⟩ := inlined_of_partFacts hG hpath hwhole hend
      refine ⟨?_, below place path, front ++ back, hwhole, rfl, hinlined'⟩
      rw [← List.concat_eq_append]
      exact hnodup.concat hinside

/-! ## What is refused -/

/-- Paths that are read below the root say what the declarations say by themselves. -/
theorem embedsThrough_of_inlining {place path : String} {inside : List TypeName} {d : PartDecl}
    (h : Inlining m ds root place inside d) (hpath : path ∈ d.embed) {steps : List TypedStep}
    (hsteps : elaborateText m root (below place path) .objects = .ok steps)
    (hend : m.isEntity (endOf root steps) = false) :
    EmbedsThrough m ds root inside (endOf root steps) := by
  induction h generalizing path steps with
  | own hd hentity hname =>
      exact .own hd hentity hname ⟨path, hpath, steps, hsteps, rfl, hend⟩
  | embedded _ hpath' hplace hend' _ hd' ih =>
      rw [below_of_elaborateText hplace] at hsteps
      obtain ⟨back, hback, rfl⟩ := (elaborateText_dot_eq_ok_iff hplace).mp hsteps
      rw [endOf_append_of_elaborateText hback] at hend ⊢
      exact .inlined (ih hpath' hplace hend') hd' ⟨path, hpath, back, hback, rfl, hend⟩

/-- Where recursion is found, the last embeddable of the chain is being inlined already. -/
theorem embedsThrough_of_recursive {depth : Nat} {place : String} {inside : List TypeName}
    {d : PartDecl} (h : Inlining m ds root place inside d)
    (hdepth : m.size < depth + inside.length) {chain : List TypeName}
    (hrecursive : partFacts m ds t root depth place inside d =
      .error (.recursiveEmbedding chain)) :
    ∃ through target, chain = root :: (through ++ [target]) ∧
      EmbedsThrough m ds root through target ∧ target ∈ through := by
  induction depth generalizing place inside d with
  | zero =>
      have hle := h.length_le
      omega
  | succ depth ih =>
      obtain ⟨path, hpath, hrecursive⟩ := partFacts_eq_recursive hrecursive
      obtain ⟨steps, hsteps, hend, ⟨hinside, rfl⟩ | ⟨hinside, d', hd', hrecursive⟩⟩ :=
        embedFacts_eq_recursive hrecursive
      · have hthrough := embedsThrough_of_inlining h hpath hsteps hend
        exact ⟨inside, endOf root steps, rfl, hthrough, hinside⟩
      · have hnext := h.embedded hpath hsteps hend hinside hd'
        have hlength : (inside ++ [endOf root steps]).length = inside.length + 1 := by simp
        exact ih hnext (by omega) hrecursive

/-! ## Compiling -/

namespace Mapping

variable {F : Facts} {mapping : Mapping m}

/-- Larger bounds make no difference, so there might as well be none. -/
theorem compileWithin_eq_compile {depth rounds : Nat} (hdepth : m.size < depth)
    (hrounds : m.concretes.length ≤ rounds) : compileWithin depth rounds m ds = compile m ds := by
  unfold compile facts
  simp only [bind_assoc]
  refine Except.bind_congr_of_ok fun _ _ => Except.bind_congr_of_ok fun table _ => ?_
  have hparts : ∀ d ∈ ds.types.filter fun d => m.isEntity d.name,
      partFacts m ds table d.name depth "" [] d =
        partFacts m ds table d.name (m.size + 1) "" [] d := by
    intro d hd
    obtain ⟨hd, hentity⟩ := List.mem_filter.mp hd
    exact partFacts_eq_of_inlining (.own hd hentity rfl) hdepth (Nat.lt_succ_self _)
  rw [Facts.collect_congr hparts]
  refine Except.bind_congr_of_ok fun F _ => ?_
  have hselect : m.Selects (indexedConcretes m ds) := selects_filter _
  rw [saturate_go_of_le hselect (Nat.le_add_left _ _) hrounds]
  rfl

theorem nodup_of_compile (h : compile m ds = .ok mapping) {through : List TypeName}
    {target : TypeName} (hthrough : EmbedsThrough m ds root through target) :
    (through ++ [target]).Nodup := by
  obtain ⟨F, hfacts, -⟩ := eq_of_compile h
  obtain ⟨t, ht, -⟩ := facts_eq_ok hfacts
  exact (part_of_embedsThrough hfacts ht hthrough).1

theorem exists_embedsThrough_of_compile {chain : List TypeName}
    (h : compile m ds = .error (.recursiveEmbedding chain)) :
    ∃ root through target, chain = root :: (through ++ [target]) ∧
      EmbedsThrough m ds root through target ∧ target ∈ through := by
  have hfacts : facts m ds = .error (.recursiveEmbedding chain) :=
    FindsNoRecursion.eq_recursive_of_bind (fun _ => .pure _) h
  obtain ⟨_, -, hfacts⟩ :=
    (FindsNoRecursion.forM findsNoRecursion_checkPart).exists_of_bind hfacts
  obtain ⟨t, -, hfacts⟩ := (findsNoRecursion_register _).exists_of_bind hfacts
  obtain ⟨d, hd, hrecursive⟩ := exists_of_collect_eq_recursive hfacts
  obtain ⟨hd, hentity⟩ := List.mem_filter.mp hd
  exact ⟨d.name, embedsThrough_of_recursive (.own hd hentity rfl) (Nat.lt_succ_self _) hrecursive⟩

/-- Compiling ends, and refuses embeddables inside themselves.  Any larger bounds on the
embeddables inside one another and on the rounds of saturation have the same result.  None of
the embeddables that are being inlined occurs twice, so there are no more than types.  In a
mapping that is accepted, no embeddable is reached twice on the way from an entity through
embedded paths; a mapping is refused for recursion only where one is. -/
theorem compile_inlines (m : Schema) (ds : Declarations) :
    (∀ depth rounds, m.size < depth → m.concretes.length ≤ rounds →
      compileWithin depth rounds m ds = compile m ds) ∧
    (∀ root place inside d, Inlining m ds root place inside d →
      inside.Nodup ∧ inside.length ≤ m.size) ∧
    (∀ mapping, compile m ds = .ok mapping → ∀ root through target,
      EmbedsThrough m ds root through target → (through ++ [target]).Nodup) ∧
    ∀ chain, compile m ds = .error (.recursiveEmbedding chain) →
      ∃ root through target, chain = root :: (through ++ [target]) ∧
        EmbedsThrough m ds root through target ∧ target ∈ through :=
  ⟨fun _ _ => compileWithin_eq_compile, fun _ _ _ _ h => ⟨h.nodup, h.length_le⟩,
    fun _ h _ _ _ => nodup_of_compile h, fun _ => exists_embedsThrough_of_compile⟩

end Mapping

open Sample

/-- A place embeds its annex, an annex being an embeddable. -/
theorem embeds_annex :
    placePart ∈ annexes.mapping.types ∧ annexesSchema.isEntity "Place" = true ∧
    annexesSchema.isEntity "Annex" = false ∧
    (elaborateText annexesSchema "Place" "annex" .objects).toOption.map (endOf "Place") =
      some "Annex" ∧
    (elaborateText annexesSchema "Annex" "annex" .objects).toOption.map (endOf "Annex") =
      some "Annex" := by
  decide +kernel

theorem embeds_of_toOption {d : PartDecl} {type target : TypeName} {path : String}
    (hpath : path ∈ d.embed) (htarget : m.isEntity target = false)
    (h : (elaborateText m type path .objects).toOption.map (endOf type) = some target) :
    d.Embeds m type target := by
  obtain ⟨steps, hsteps, rfl⟩ := Option.map_eq_some_iff.mp h
  exact ⟨path, hpath, steps, Except.eq_ok_of_toOption hsteps, rfl, htarget⟩

theorem Mapping.compile_inlines_annexes :
    (compile annexesSchema annexes.mapping = .ok annexesMapping ∧
      EmbedsThrough annexesSchema annexes.mapping "Place" [] "Annex" ∧
      ([] ++ ["Annex"] : List TypeName).Nodup) ∧
    compile annexesSchema nestedAnnexes =
        .error (.recursiveEmbedding ["Place", "Annex", "Annex"]) ∧
      ∃ root through target, ["Place", "Annex", "Annex"] = root :: (through ++ [target]) ∧
        EmbedsThrough annexesSchema nestedAnnexes root through target ∧ target ∈ through := by
  obtain ⟨hplace, hentity, hembeddable, hannex, -⟩ := embeds_annex
  have hthrough : EmbedsThrough annexesSchema annexes.mapping "Place" [] "Annex" :=
    .own hplace hentity rfl (embeds_of_toOption List.mem_cons_self hembeddable hannex)
  have hrefused : compile annexesSchema nestedAnnexes =
      .error (.recursiveEmbedding ["Place", "Annex", "Annex"]) := by
    decide +kernel
  obtain ⟨-, -, haccepts, -⟩ := compile_inlines annexesSchema annexes.mapping
  obtain ⟨-, -, -, hrefuses⟩ := compile_inlines annexesSchema nestedAnnexes
  exact ⟨⟨compile_annexes, hthrough, haccepts _ compile_annexes _ _ _ hthrough⟩, hrefused,
    hrefuses _ hrefused⟩

/-- Annexes inherit from places.  What is declared about places, which are entities, is not
inlined into an annex, though: read on an annex, their embedded path leads to an annex again. -/
theorem annexes_inherit_embedding :
    Mapping.compile annexesSchema annexes.mapping = .ok annexesMapping ∧
    placePart ∈ annexes.mapping.types ∧ annexesSchema.isEntity placePart.name = true ∧
    placePart.Embeds annexesSchema placePart.name "Annex" ∧
    annexesSchema.fits "Annex" placePart.name = true ∧
    placePart.Embeds annexesSchema "Annex" "Annex" := by
  obtain ⟨hplace, hentity, hembeddable, hannex, hagain⟩ := embeds_annex
  refine ⟨compile_annexes, hplace, hentity, ?_, by decide +kernel, ?_⟩
  · exact embeds_of_toOption List.mem_cons_self hembeddable hannex
  · exact embeds_of_toOption List.mem_cons_self hembeddable hagain

end IndexSync
