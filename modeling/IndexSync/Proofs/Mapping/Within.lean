import IndexSync.Proofs.Mapping.InverseTable

/-!
# Fewer declarations

Declarations that leave out some of what others declare, with the same inverse sides, are
accepted where these are, and give rise to no other facts.

- `Declarations.Within` — every part has a counterpart that declares at least as much, in
  whatever order.
- `segments_congr` — tables that answer alike make the same triggers.
- `Facts.Includes` — one computation succeeds if another one does, with part of its facts;
  one lemma for each way to put computations together.
- `includes_partFacts`, `Mapping.includes_facts` — so it is with the facts of fewer
  declarations; by induction on the number of embeddables that may still be inlined.
-/

namespace IndexSync

variable {m : Schema} {ds ds' : Declarations} {t t' : InverseTable} {root : TypeName}

/-- The same way to an entity of the same type, on which no other paths are used. -/
structure Dependency.Within (o o' : Dependency) : Prop where
  type : o.type = o'.type
  inversePath : o.inversePath = o'.inversePath
  used : o.used ⊆ o'.used

/-- A part of the same type that declares nothing else. -/
structure PartDecl.Within (d d' : PartDecl) : Prop where
  name : d.name = d'.name
  indexed : d.indexed = d'.indexed
  read : d.read ⊆ d'.read
  embed : d.embed ⊆ d'.embed
  other : ∀ o ∈ d.other, ∃ o' ∈ d'.other, o.Within o'

/-- Every part has a counterpart, and the inverse sides are the same. -/
structure Declarations.Within (ds ds' : Declarations) : Prop where
  types : ∀ d ∈ ds.types, ∃ d' ∈ ds'.types, d.Within d'
  inverses : ∀ pair, pair ∈ ds.inverses ↔ pair ∈ ds'.inverses

/-! ## Checks -/

/-- The types are declared, and entities where documents or dependencies ask for them. -/
theorem checkPart_eq_ok {d : PartDecl} :
    checkPart m d = .ok () ↔ m.declares d.name = true ∧
      (d.indexed = true → m.isEntity d.name = true) ∧
      (d.other ≠ [] → m.isEntity d.name = true) ∧
      ∀ o ∈ d.other, m.declares o.type = true ∧ m.isEntity o.type = true := by
  have hsource : ∀ o : Dependency, (do
      requireDeclared m o.type
      if m.isEntity o.type then .ok () else .error (.notAnEntity o.type .source) :
        Except MappingError Unit) = .ok () ↔
      m.declares o.type = true ∧ m.isEntity o.type = true := by
    intro o
    rw [Except.check_bind_eq_ok, requireDeclared_eq_ok]
    by_cases hentity : m.isEntity o.type = true <;> simp [hentity]
  simp only [← hsource, ← List.forM_eq_ok]
  rw [checkPart, Except.check_bind_eq_ok, requireDeclared_eq_ok]
  by_cases hentity : m.isEntity d.name = true
  · simp [hentity]
  · cases hindexed : d.indexed <;> cases hother : d.other <;> simp [hentity]

theorem checkPart_of_within {d d' : PartDecl} (hd : d.Within d') (h : checkPart m d' = .ok ()) :
    checkPart m d = .ok () := by
  obtain ⟨hdeclares, hindexed, hother, hsources⟩ := checkPart_eq_ok.mp h
  rw [checkPart_eq_ok, hd.name, hd.indexed]
  refine ⟨hdeclares, hindexed, fun hne => ?_, fun o ho => ?_⟩
  · obtain ⟨o, ho⟩ := List.exists_mem_of_ne_nil _ hne
    obtain ⟨o', ho', -⟩ := hd.other o ho
    exact hother (List.ne_nil_of_mem ho')
  · obtain ⟨o', ho', hwithin⟩ := hd.other o ho
    rw [hwithin.type]
    exact hsources o' ho'

/-! ## Inverse sides -/

namespace InverseTable

theorem backlinkOver_congr (h : t.find? = t'.find?) : t.backlinkOver m = t'.backlinkOver m := by
  funext whole owner names target
  unfold backlinkOver nearest?
  rw [h]

end InverseTable

theorem segments_congr (h : t.find? = t'.find?) : segments m t = segments m t' := by
  have halong : ∀ (whole : TypeName × String) (chain : List Backlink) (segs : List Segment),
      triggersAlong m t whole chain segs = triggersAlong m t' whole chain segs := by
    intro whole chain segs
    induction segs generalizing chain with
    | nil => rfl
    | cons seg segs ih =>
        unfold triggersAlong
        rw [InverseTable.backlinkOver_congr h]
        simp only [ih]
  funext owner text steps crossEnd tail
  exact halong _ _ _

/-! ## Facts -/

namespace Facts

theorem Within.refl (F : Facts) : F.Within F :=
  ⟨List.Subset.refl _, List.Subset.refl _⟩

theorem Within.append {F F' G G' : Facts} (h : F.Within G) (h' : F'.Within G') :
    (F ++ F').Within (G ++ G') where
  triggers := List.append_subset.mpr
    ⟨List.subset_append_of_subset_left _ h.triggers,
      List.subset_append_of_subset_right _ h'.triggers⟩
  embeddings := List.append_subset.mpr
    ⟨List.subset_append_of_subset_left _ h.embeddings,
      List.subset_append_of_subset_right _ h'.embeddings⟩

/-- Where the first computation finds facts, the second one does, and no others. -/
def Includes (x y : Except ε Facts) : Prop :=
  ∀ F, x = .ok F → ∃ G, y = .ok G ∧ G.Within F

theorem exists_collect {α : Type} {f : α → Except ε Facts} {l : List α}
    (h : ∀ a ∈ l, ∃ G, f a = .ok G) : ∃ F, collect l f = .ok F := by
  suffices go : ∀ start : Facts, ∃ F,
      l.foldlM (fun facts x => return facts ++ (← f x)) start = .ok F from go empty
  induction l with
  | nil => exact fun start => ⟨start, rfl⟩
  | cons a l ih =>
      intro start
      obtain ⟨⟨G, hG⟩, hl⟩ := List.forall_mem_cons.mp h
      obtain ⟨F, hF⟩ := ih hl (start ++ G)
      refine ⟨F, List.foldlM_cons_eq_ok.mpr ⟨start ++ G, ?_, hF⟩⟩
      rw [hG]
      rfl

namespace Includes

variable {x y : Except ε Facts}

theorem refl (x : Except ε Facts) : Includes x x :=
  fun F hF => ⟨F, hF, .refl F⟩

theorem pure {F G : Facts} (h : G.Within F) : Includes (pure F : Except ε Facts) (pure G) := by
  rintro _ ⟨⟩
  exact ⟨G, rfl, h⟩

/-- The same computation first. -/
theorem after {α : Type} (x : Except ε α) {f g : α → Except ε Facts}
    (h : ∀ a, Includes (f a) (g a)) : Includes (x >>= f) (x >>= g) := by
  cases x with
  | error e => exact nofun
  | ok a => exact h a

theorem bind (hx : Includes x y) {f g : Facts → Except ε Facts}
    (h : ∀ F G, G.Within F → Includes (f F) (g G)) : Includes (x >>= f) (y >>= g) := by
  intro H hH
  obtain ⟨F, hF, hH⟩ := Except.bind_eq_ok.mp hH
  obtain ⟨G, hG, hwithin⟩ := hx F hF
  rw [hG]
  exact h F G hwithin H hH

/-- Fewer members, each with a counterpart. -/
theorem collect {α : Type} {f g : α → Except ε Facts} {l l' : List α}
    (h : ∀ a' ∈ l', ∃ a ∈ l, Includes (f a) (g a')) :
    Includes (collect l f) (collect l' g) := by
  intro F hF
  have hmember : ∀ a' ∈ l', ∃ G, g a' = .ok G ∧ G.Within F := by
    intro a' ha'
    obtain ⟨a, ha, hincludes⟩ := h a' ha'
    obtain ⟨H, hH, hle⟩ := exists_within_of_collect hF ha
    obtain ⟨G, hG, hwithin⟩ := hincludes H hH
    exact ⟨G, hG, hwithin.trans hle⟩
  obtain ⟨G, hG⟩ := exists_collect fun a' ha' => (hmember a' ha').imp fun _ => And.left
  refine ⟨G, hG, fun t ht => ?_, fun e he => ?_⟩
  · obtain ⟨a', ha', G', hG', ht⟩ := mem_triggers_of_collect hG ht
    obtain ⟨_, hG'', hwithin⟩ := hmember a' ha'
    cases hG'.symm.trans hG''
    exact hwithin.triggers ht
  · obtain ⟨a', ha', G', hG', he⟩ := mem_embeddings_of_collect hG he
    obtain ⟨_, hG'', hwithin⟩ := hmember a' ha'
    cases hG'.symm.trans hG''
    exact hwithin.embeddings he

/-- Fewer members of the same kind. -/
theorem collect_subset {α : Type} (f : α → Except ε Facts) {l l' : List α} (h : l' ⊆ l) :
    Includes (Facts.collect l f) (Facts.collect l' f) :=
  collect fun a ha => ⟨a, h ha, refl _⟩

end Includes

end Facts

open Facts (Includes)

section

variable (hfind : t.find? = t'.find?)
include hfind

theorem includes_dependencyFacts {o o' : Dependency} (ho : o.Within o') :
    Includes (dependencyFacts m t root o') (dependencyFacts m t' root o) := by
  obtain ⟨type, inversePath, used⟩ := o
  obtain ⟨_, _, used'⟩ := o'
  obtain ⟨rfl, rfl, hused⟩ := ho
  refine .after _ fun link => ?_
  have hfacts : ∀ path, usedFacts m t ⟨type, inversePath, used'⟩ link path =
      usedFacts m t' ⟨type, inversePath, used⟩ link path := by
    intro path
    unfold usedFacts
    rw [segments_congr hfind]
  refine (Includes.collect fun path hpath => ⟨path, hused hpath, ?_⟩).bind fun F G hG => ?_
  · rw [hfacts]
    exact .refl _
  · exact .pure ((Facts.Within.refl _).append hG)

/-- So it is with the facts of fewer declarations. -/
theorem includes_partFacts (hds : ds.Within ds') {depth : Nat} {place : String}
    {inside : List TypeName} {d d' : PartDecl} (hd : d.Within d') :
    Includes (partFacts m ds' t root depth place inside d')
      (partFacts m ds t' root depth place inside d) := by
  induction depth generalizing place inside d d' with
  | zero =>
      intro F hF
      cases hF
  | succ depth ih =>
      unfold partFacts
      have hread : readFacts m t root place = readFacts m t' root place := by
        funext path
        unfold readFacts
        rw [segments_congr hfind]
      have hembed : ∀ path, Includes
          (embedFacts m ds' t root (partFacts m ds' t root depth) place inside path)
          (embedFacts m ds t' root (partFacts m ds t' root depth) place inside path) := by
        intro path
        unfold embedFacts
        rw [segments_congr hfind]
        refine .after _ fun steps => ?_
        dsimp only
        split
        · exact .refl _
        · refine .after _ fun found => ?_
          split
          · intro F hF
            cases hF
          · refine (Includes.collect fun d hd => ?_).bind fun F G hG => ?_
            · obtain ⟨hd, hembeddable, hfits⟩ := mem_inlinedInto_iff.mp hd
              obtain ⟨d', hd', hwithin⟩ := hds.types d hd
              rw [hwithin.name] at hembeddable hfits
              exact ⟨d', mem_inlinedInto_iff.mpr ⟨hd', hembeddable, hfits⟩, ih hwithin⟩
            · exact .pure ((Facts.Within.refl _).append hG)
      rw [hread]
      refine (Includes.collect_subset _ hd.read).bind fun R R' hR => ?_
      refine (Includes.collect fun path hpath => ⟨path, hd.embed hpath, hembed path⟩).bind
        fun E E' hE => ?_
      refine (Includes.collect fun o ho => ?_).bind fun O O' hO => ?_
      · obtain ⟨o', ho', hwithin⟩ := hd.other o ho
        exact ⟨o', ho', includes_dependencyFacts hfind hwithin⟩
      · exact .pure ((hR.append hE).append hO)

end

/-- Fewer declarations are accepted where more are, and give rise to no other facts. -/
theorem Mapping.includes_facts (hds : ds.Within ds') :
    Includes (facts m ds') (facts m ds) := by
  intro F hF
  obtain ⟨t, ht, hcheck, hcollect⟩ := facts_eq_ok hF
  have hsame : ∀ d, ds.Pairs d ↔ ds'.Pairs d := fun d =>
    or_congr (hds.inverses d) (hds.inverses d.swap)
  obtain ⟨t', ht', hfind⟩ := InverseTable.exists_register_of_same hsame ht
  have hcheck' : ds.types.forM (checkPart m) = .ok () := by
    refine List.forM_eq_ok.mpr fun d hd => ?_
    obtain ⟨d', hd', hwithin⟩ := hds.types d hd
    exact checkPart_of_within hwithin (hcheck d' hd')
  have hparts : Includes
      (Facts.collect (ds'.types.filter fun d => m.isEntity d.name) fun d =>
        partFacts m ds' t d.name (m.size + 1) "" [] d)
      (Facts.collect (ds.types.filter fun d => m.isEntity d.name) fun d =>
        partFacts m ds t' d.name (m.size + 1) "" [] d) := by
    refine .collect fun d hd => ?_
    obtain ⟨hd, hentity⟩ := List.mem_filter.mp hd
    obtain ⟨d', hd', hwithin⟩ := hds.types d hd
    rw [hwithin.name] at hentity ⊢
    exact ⟨d', List.mem_filter.mpr ⟨hd', hentity⟩, includes_partFacts hfind.symm hds hwithin⟩
  obtain ⟨G, hG, hle⟩ := hparts F hcollect
  refine ⟨G, ?_, hle⟩
  rw [facts, hcheck']
  show InverseTable.register m ds.inverses >>= _ = _
  rw [ht']
  exact hG

end IndexSync
