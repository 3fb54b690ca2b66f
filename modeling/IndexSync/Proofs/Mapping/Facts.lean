import IndexSync.Proofs.Success
import IndexSync.Proofs.Mapping.Documents

/-!
# Facts of declarations

The facts of a mapping are those of the paths and dependencies that its document
parts declare, no more and no less.

- `exists_part_of_inlined` — the facts of inlined declarations are among those of
  their root; by induction on how they were inlined.
- `Mapping.facts_of_declares`, `Mapping.facts_of_dependsOn` — so are the facts of
  every declared path and dependency.
- `TriggerOf`, `EmbeddingOf` — a fact with the declaration it comes from
  (`Mapping.triggerOf_of_mem`, `Mapping.embeddingOf_of_mem`); by induction on the
  number of embeddables that may still be inlined.
-/

namespace IndexSync

variable {m : Schema} {ds : Declarations} {t : InverseTable} {root : TypeName}

theorem mem_inlinedInto_iff {type : TypeName} {d : PartDecl} :
    d ∈ inlinedInto m ds type ↔
      d ∈ ds.types ∧ m.isEntity d.name = false ∧ m.fits type d.name = true := by
  rw [inlinedInto, List.mem_filter]
  simp

/-! ## Facts of one declaration -/

theorem readFacts_eq_ok {place path : String} {F : Facts}
    (h : readFacts m t root place path = .ok F) :
    ∃ steps triggers back, elaborateText m root (below place path) .anything = .ok steps ∧
      segments m t root (below place path) steps false [] = .ok (triggers, back) ∧
      F = .ofTriggers triggers := by
  obtain ⟨steps, hsteps, h⟩ := Except.bind_eq_ok.mp h
  obtain ⟨⟨triggers, back⟩, hsegments, h⟩ := Except.bind_eq_ok.mp h
  exact ⟨steps, triggers, back, hsteps, hsegments, (Except.pure_eq_ok.mp h).symm⟩

/-- An embedded entity gives an edge; an embedded embeddable gives the facts of the
declarations inlined. -/
theorem embedFacts_eq_ok
    {inline : String → List TypeName → PartDecl → Except MappingError Facts} {place path : String}
    {inside : List TypeName} {F : Facts}
    (h : embedFacts m ds t root inline place inside path = .ok F) :
    ∃ steps triggers back, elaborateText m root (below place path) .objects = .ok steps ∧
      segments m t root (below place path) steps (m.isEntity (endOf root steps)) [] =
        .ok (triggers, back) ∧
      (m.isEntity (endOf root steps) = true ∧ F = { triggers, embeddings :=
          [{ target := endOf root steps, chain := back, landing := chainEnd back root }] } ∨
        m.isEntity (endOf root steps) = false ∧ endOf root steps ∉ inside ∧ ∃ G,
          Facts.collect (inlinedInto m ds (endOf root steps))
            (inline (below place path) (inside ++ [endOf root steps])) = .ok G ∧
          F = .ofTriggers triggers ++ G) := by
  obtain ⟨steps, hsteps, h⟩ := Except.bind_eq_ok.mp h
  dsimp only at h
  split at h
  · rename_i hentity
    obtain ⟨⟨triggers, back⟩, hsegments, h⟩ := Except.bind_eq_ok.mp h
    exact ⟨steps, triggers, back, hsteps, by rw [hentity]; exact hsegments,
      .inl ⟨hentity, (Except.pure_eq_ok.mp h).symm⟩⟩
  · rename_i hentity
    have hentity := Bool.eq_false_iff.mpr hentity
    obtain ⟨⟨triggers, back⟩, hsegments, h⟩ := Except.bind_eq_ok.mp h
    dsimp only at h
    split at h
    · cases h
    · rename_i hinside
      obtain ⟨G, hG, h⟩ := Except.bind_eq_ok.mp h
      exact ⟨steps, triggers, back, hsteps, by rw [hentity]; exact hsegments,
        .inr ⟨hentity, hinside, G, hG, (Except.pure_eq_ok.mp h).symm⟩⟩

theorem usedFacts_eq_ok {o : Dependency} {link : Backlink} {path : String} {F : Facts}
    (h : usedFacts m t o link path = .ok F) :
    ∃ steps triggers back, elaborateText m o.type path .anything = .ok steps ∧
      segments m t o.type path steps false [link] = .ok (triggers, back) ∧
      F = .ofTriggers triggers := by
  obtain ⟨steps, hsteps, h⟩ := Except.bind_eq_ok.mp h
  obtain ⟨⟨triggers, back⟩, hsegments, h⟩ := Except.bind_eq_ok.mp h
  exact ⟨steps, triggers, back, hsteps, hsegments, (Except.pure_eq_ok.mp h).symm⟩

theorem dependencyFacts_eq_ok {o : Dependency} {F : Facts}
    (h : dependencyFacts m t root o = .ok F) :
    ∃ link G, dependencyLink m root o = .ok link ∧
      Facts.collect o.used (usedFacts m t o link) = .ok G ∧
      F = .ofTriggers [.along o.type link.names [link]] ++ G := by
  obtain ⟨link, hlink, h⟩ := Except.bind_eq_ok.mp h
  obtain ⟨G, hG, h⟩ := Except.bind_eq_ok.mp h
  exact ⟨link, G, hlink, hG, (Except.pure_eq_ok.mp h).symm⟩

theorem partFacts_succ_eq_ok {depth : Nat} {place : String} {inside : List TypeName}
    {d : PartDecl} {F : Facts} (h : partFacts m ds t root (depth + 1) place inside d = .ok F) :
    ∃ R E O, Facts.collect d.read (readFacts m t root place) = .ok R ∧
      Facts.collect d.embed
        (embedFacts m ds t root (partFacts m ds t root depth) place inside) = .ok E ∧
      Facts.collect d.other (dependencyFacts m t root) = .ok O ∧ F = R ++ E ++ O := by
  rw [partFacts] at h
  obtain ⟨R, hR, h⟩ := Except.bind_eq_ok.mp h
  obtain ⟨E, hE, h⟩ := Except.bind_eq_ok.mp h
  obtain ⟨O, hO, h⟩ := Except.bind_eq_ok.mp h
  exact ⟨R, E, O, hR, hE, hO, (Except.pure_eq_ok.mp h).symm⟩

/-! ## No declaration is left out -/

namespace Facts

/-- All facts of `F` are facts of `G`. -/
structure Within (F G : Facts) : Prop where
  triggers : F.triggers ⊆ G.triggers
  embeddings : F.embeddings ⊆ G.embeddings

theorem Within.trans {F G H : Facts} (h : F.Within G) (h' : G.Within H) : F.Within H :=
  ⟨List.Subset.trans h.triggers h'.triggers, List.Subset.trans h.embeddings h'.embeddings⟩

theorem within_append_left (F G : Facts) : F.Within (F ++ G) :=
  ⟨List.subset_append_left _ _, List.subset_append_left _ _⟩

theorem within_append_right (F G : Facts) : G.Within (F ++ G) :=
  ⟨List.subset_append_right _ _, List.subset_append_right _ _⟩

/-- The facts of read paths, embedded paths and dependencies are all kept. -/
theorem within_parts (R E O : Facts) :
    R.Within (R ++ E ++ O) ∧ E.Within (R ++ E ++ O) ∧ O.Within (R ++ E ++ O) := by
  have hfront : (R ++ E).Within (R ++ E ++ O) := within_append_left _ O
  have hread : R.Within (R ++ E) := within_append_left R E
  have hembed : E.Within (R ++ E) := within_append_right R E
  exact ⟨hread.trans hfront, hembed.trans hfront, within_append_right _ O⟩

theorem exists_within_of_collect {α : Type} {f : α → Except ε Facts} {l : List α} {F : Facts}
    (h : collect l f = .ok F) {a : α} (ha : a ∈ l) : ∃ G, f a = .ok G ∧ G.Within F := by
  obtain ⟨G, hG, ht, he⟩ := exists_of_collect h ha
  exact ⟨G, hG, ht, he⟩

end Facts

theorem facts_eq_ok {F : Facts} (h : Mapping.facts m ds = .ok F) :
    ∃ t, InverseTable.register m ds.inverses = .ok t ∧ (∀ d ∈ ds.types, checkPart m d = .ok ()) ∧
      Facts.collect (ds.types.filter fun d => m.isEntity d.name) (fun d =>
        partFacts m ds t d.name (m.size + 1) "" [] d) = .ok F := by
  obtain ⟨⟨⟩, hcheck, h⟩ := Except.bind_eq_ok.mp h
  obtain ⟨t, ht, h⟩ := Except.bind_eq_ok.mp h
  exact ⟨t, ht, List.forM_eq_ok.mp hcheck, h⟩

variable {F : Facts} (hfacts : Mapping.facts m ds = .ok F)
  (ht : InverseTable.register m ds.inverses = .ok t)
include hfacts ht

/-- The facts of inlined declarations are facts of the mapping. -/
theorem exists_part_of_inlined {place : String} {d : PartDecl} (h : Inlined m ds root place d) :
    ∃ depth inside G, partFacts m ds t root (depth + 1) place inside d = .ok G ∧ G.Within F := by
  obtain ⟨t', ht', -, hcollect⟩ := facts_eq_ok hfacts
  cases ht.symm.trans ht'
  induction h with
  | @own d hd hentity hname =>
      subst hname
      obtain ⟨G, hG, hwithin⟩ := Facts.exists_within_of_collect hcollect
        (List.mem_filter.mpr ⟨hd, hentity⟩)
      exact ⟨m.size, [], G, hG, hwithin⟩
  | @embedded place path d d' steps _ hpath hsteps hend hd' hembeddable hfits ih =>
      obtain ⟨depth, inside, G, hG, hwithin⟩ := ih
      obtain ⟨R, E, O, -, hE, -, rfl⟩ := partFacts_succ_eq_ok hG
      obtain ⟨G', hG', hwithin'⟩ := Facts.exists_within_of_collect hE hpath
      obtain ⟨steps', _, _, hsteps', -, ⟨hentity, -⟩ | ⟨-, -, I, hI, rfl⟩⟩ :=
        embedFacts_eq_ok hG'
      · cases hsteps.symm.trans hsteps'
        rw [hend] at hentity
        cases hentity
      · cases hsteps.symm.trans hsteps'
        have hmem : d' ∈ inlinedInto m ds (endOf root steps) :=
          mem_inlinedInto_iff.mpr ⟨hd', hembeddable, hfits⟩
        obtain ⟨H, hH, hwithin''⟩ := Facts.exists_within_of_collect hI hmem
        obtain ⟨-, hembed, -⟩ := Facts.within_parts R E O
        have hinlined : H.Within E :=
          hwithin''.trans ((Facts.within_append_right _ I).trans hwithin')
        have hle : H.Within F := hinlined.trans (hembed.trans hwithin)
        -- the bound cannot be used up, as these facts were found
        cases depth with
        | zero => cases hH
        | succ depth => exact ⟨depth, _, H, hH, hle⟩

/-- Every declared path has its triggers, and its edge if it embeds an entity. -/
theorem Mapping.facts_of_declares {text : String} {steps : List TypedStep} {crossEnd : Bool}
    (h : Declares m ds root text steps crossEnd) :
    ∃ triggers back, segments m t root text steps crossEnd [] = .ok (triggers, back) ∧
      triggers ⊆ F.triggers ∧ (crossEnd = true →
        Embedding.mk (endOf root steps) back (chainEnd back root) ∈ F.embeddings) := by
  cases h with
  | @read place path d steps hd hpath hsteps =>
      obtain ⟨depth, inside, G, hG, hwithin⟩ := exists_part_of_inlined hfacts ht hd
      obtain ⟨R, E, O, hR, -, -, rfl⟩ := partFacts_succ_eq_ok hG
      obtain ⟨G', hG', hwithin'⟩ := Facts.exists_within_of_collect hR hpath
      obtain ⟨hread, -, -⟩ := Facts.within_parts R E O
      have hle : G'.Within F := hwithin'.trans (hread.trans hwithin)
      obtain ⟨steps', triggers, back, hsteps', hsegments, rfl⟩ := readFacts_eq_ok hG'
      cases hsteps.symm.trans hsteps'
      exact ⟨triggers, back, hsegments, hle.triggers, nofun⟩
  | @embed place path d steps hd hpath hsteps =>
      obtain ⟨depth, inside, G, hG, hwithin⟩ := exists_part_of_inlined hfacts ht hd
      obtain ⟨R, E, O, -, hE, -, rfl⟩ := partFacts_succ_eq_ok hG
      obtain ⟨G', hG', hwithin'⟩ := Facts.exists_within_of_collect hE hpath
      obtain ⟨-, hembed, -⟩ := Facts.within_parts R E O
      have hle : G'.Within F := hwithin'.trans (hembed.trans hwithin)
      obtain ⟨steps', triggers, back, hsteps', hsegments, ⟨-, rfl⟩ | ⟨hend, -, I, -, rfl⟩⟩ :=
        embedFacts_eq_ok hG'
      · cases hsteps.symm.trans hsteps'
        exact ⟨triggers, back, hsegments, hle.triggers,
          fun _ => hle.embeddings List.mem_cons_self⟩
      · cases hsteps.symm.trans hsteps'
        have hown : (Facts.ofTriggers triggers).Within F :=
          (Facts.within_append_left _ I).trans hle
        refine ⟨triggers, back, hsegments, hown.triggers, ?_⟩
        intro hentity
        rw [hend] at hentity
        cases hentity

/-- Every dependency has its own trigger and those of the paths it uses. -/
theorem Mapping.facts_of_dependsOn {o : Dependency} {link : Backlink}
    (h : DependsOn m ds root o link) :
    .along o.type link.names [link] ∈ F.triggers ∧ ∀ path ∈ o.used, ∃ steps triggers back,
      elaborateText m o.type path .anything = .ok steps ∧
      segments m t o.type path steps false [link] = .ok (triggers, back) ∧
      triggers ⊆ F.triggers := by
  obtain ⟨place, d, hd, ho, hlink⟩ := h
  obtain ⟨depth, inside, G, hG, hwithin⟩ := exists_part_of_inlined hfacts ht hd
  obtain ⟨R, E, O, -, -, hO, rfl⟩ := partFacts_succ_eq_ok hG
  obtain ⟨G', hG', hwithin'⟩ := Facts.exists_within_of_collect hO ho
  obtain ⟨-, -, hother⟩ := Facts.within_parts R E O
  have hle : G'.Within F := hwithin'.trans (hother.trans hwithin)
  obtain ⟨link', U, hlink', hU, rfl⟩ := dependencyFacts_eq_ok hG'
  cases hlink.symm.trans hlink'
  have hown : (Facts.ofTriggers [.along o.type link.names [link]]).Within F :=
    (Facts.within_append_left _ U).trans hle
  have hused : U.Within F := (Facts.within_append_right _ U).trans hle
  refine ⟨hown.triggers List.mem_cons_self, ?_⟩
  intro path hpath
  obtain ⟨G'', hG'', hwithin''⟩ := Facts.exists_within_of_collect hU hpath
  have hle' : G''.Within F := hwithin''.trans hused
  obtain ⟨steps, triggers, back, hsteps, hsegments, rfl⟩ := usedFacts_eq_ok hG''
  exact ⟨steps, triggers, back, hsteps, hsegments, hle'.triggers⟩

omit hfacts ht

/-! ## No fact is made up -/

/-- A trigger of a declared path or dependency of `root`. -/
inductive TriggerOf (m : Schema) (ds : Declarations) (t : InverseTable) (root : TypeName) :
    Trigger → Prop
  | path {text : String} {steps : List TypedStep} {crossEnd : Bool} {triggers : List Trigger}
      {back : List Backlink} {trigger : Trigger} : Declares m ds root text steps crossEnd →
      segments m t root text steps crossEnd [] = .ok (triggers, back) → trigger ∈ triggers →
      TriggerOf m ds t root trigger
  | inverse {o : Dependency} {link : Backlink} : DependsOn m ds root o link →
      TriggerOf m ds t root (.along o.type link.names [link])
  | used {o : Dependency} {link : Backlink} {path : String} {steps : List TypedStep}
      {triggers : List Trigger} {back : List Backlink} {trigger : Trigger} :
      DependsOn m ds root o link → path ∈ o.used →
      elaborateText m o.type path .anything = .ok steps →
      segments m t o.type path steps false [link] = .ok (triggers, back) → trigger ∈ triggers →
      TriggerOf m ds t root trigger

/-- The edge of a declared path of `root` that embeds an entity. -/
def EmbeddingOf (m : Schema) (ds : Declarations) (t : InverseTable) (root : TypeName)
    (e : Embedding) : Prop :=
  ∃ text steps triggers back, Declares m ds root text steps true ∧
    segments m t root text steps true [] = .ok (triggers, back) ∧
    e = { target := endOf root steps, chain := back, landing := chainEnd back root }

theorem triggerOf_of_partFacts {depth : Nat} {place : String} {inside : List TypeName}
    {d : PartDecl} (hd : Inlined m ds root place d)
    (h : partFacts m ds t root depth place inside d = .ok F) {trigger : Trigger}
    (hmem : trigger ∈ F.triggers) : TriggerOf m ds t root trigger := by
  induction depth generalizing place inside d F with
  | zero => cases h
  | succ depth ih =>
      obtain ⟨R, E, O, hR, hE, hO, rfl⟩ := partFacts_succ_eq_ok h
      rcases List.mem_append.mp hmem with hmem | hmem
      · rcases List.mem_append.mp hmem with hmem | hmem
        · obtain ⟨path, hpath, G, hG, hmem⟩ := Facts.mem_triggers_of_collect hR hmem
          obtain ⟨steps, triggers, back, hsteps, hsegments, rfl⟩ := readFacts_eq_ok hG
          exact .path (.read hd hpath hsteps) hsegments hmem
        · obtain ⟨path, hpath, G, hG, hmem⟩ := Facts.mem_triggers_of_collect hE hmem
          obtain ⟨steps, triggers, back, hsteps, hsegments, ⟨-, rfl⟩ | ⟨hend, -, I, hI, rfl⟩⟩ :=
            embedFacts_eq_ok hG
          · exact .path (.embed hd hpath hsteps) hsegments hmem
          · rcases List.mem_append.mp hmem with hmem | hmem
            · exact .path (.embed hd hpath hsteps) hsegments hmem
            · obtain ⟨d', hd', H, hH, hmem⟩ := Facts.mem_triggers_of_collect hI hmem
              obtain ⟨hd', hembeddable, hfits⟩ := mem_inlinedInto_iff.mp hd'
              exact ih (.embedded hd hpath hsteps hend hd' hembeddable hfits) hH hmem
      · obtain ⟨o, ho, G, hG, hmem⟩ := Facts.mem_triggers_of_collect hO hmem
        obtain ⟨link, U, hlink, hU, rfl⟩ := dependencyFacts_eq_ok hG
        have hdepends : DependsOn m ds root o link := ⟨place, d, hd, ho, hlink⟩
        rcases List.mem_append.mp hmem with hmem | hmem
        · cases List.mem_singleton.mp hmem
          exact .inverse hdepends
        · obtain ⟨path, hpath, G', hG', hmem⟩ := Facts.mem_triggers_of_collect hU hmem
          obtain ⟨steps, triggers, back, hsteps, hsegments, rfl⟩ := usedFacts_eq_ok hG'
          exact .used hdepends hpath hsteps hsegments hmem

theorem embeddingOf_of_partFacts {depth : Nat} {place : String} {inside : List TypeName}
    {d : PartDecl} (hd : Inlined m ds root place d)
    (h : partFacts m ds t root depth place inside d = .ok F) {e : Embedding}
    (hmem : e ∈ F.embeddings) : EmbeddingOf m ds t root e := by
  induction depth generalizing place inside d F with
  | zero => cases h
  | succ depth ih =>
      obtain ⟨R, E, O, hR, hE, hO, rfl⟩ := partFacts_succ_eq_ok h
      rcases List.mem_append.mp hmem with hmem | hmem
      · rcases List.mem_append.mp hmem with hmem | hmem
        · obtain ⟨path, -, G, hG, hmem⟩ := Facts.mem_embeddings_of_collect hR hmem
          obtain ⟨_, _, _, -, -, rfl⟩ := readFacts_eq_ok hG
          cases hmem
        · obtain ⟨path, hpath, G, hG, hmem⟩ := Facts.mem_embeddings_of_collect hE hmem
          obtain ⟨steps, triggers, back, hsteps, hsegments, ⟨hend, rfl⟩ | ⟨hend, -, I, hI, rfl⟩⟩ :=
            embedFacts_eq_ok hG
          · cases List.mem_singleton.mp hmem
            have hdeclares := Declares.embed hd hpath hsteps
            rw [hend] at hsegments hdeclares
            exact ⟨_, steps, triggers, back, hdeclares, hsegments, rfl⟩
          · obtain ⟨d', hd', H, hH, hmem⟩ := Facts.mem_embeddings_of_collect hI hmem
            obtain ⟨hd', hembeddable, hfits⟩ := mem_inlinedInto_iff.mp hd'
            exact ih (.embedded hd hpath hsteps hend hd' hembeddable hfits) hH hmem
      · obtain ⟨o, -, G, hG, hmem⟩ := Facts.mem_embeddings_of_collect hO hmem
        obtain ⟨link, U, -, hU, rfl⟩ := dependencyFacts_eq_ok hG
        obtain ⟨path, -, G', hG', hmem⟩ := Facts.mem_embeddings_of_collect hU hmem
        obtain ⟨_, _, _, -, -, rfl⟩ := usedFacts_eq_ok hG'
        cases hmem

include hfacts ht

theorem Mapping.triggerOf_of_mem {trigger : Trigger} (h : trigger ∈ F.triggers) :
    ∃ root, TriggerOf m ds t root trigger := by
  obtain ⟨t', ht', -, hcollect⟩ := facts_eq_ok hfacts
  cases ht.symm.trans ht'
  obtain ⟨d, hd, G, hG, hmem⟩ := Facts.mem_triggers_of_collect hcollect h
  obtain ⟨hd, hentity⟩ := List.mem_filter.mp hd
  exact ⟨d.name, triggerOf_of_partFacts (.own hd hentity rfl) hG hmem⟩

theorem Mapping.embeddingOf_of_mem {e : Embedding} (h : e ∈ F.embeddings) :
    ∃ root, EmbeddingOf m ds t root e := by
  obtain ⟨t', ht', -, hcollect⟩ := facts_eq_ok hfacts
  cases ht.symm.trans ht'
  obtain ⟨d, hd, G, hG, hmem⟩ := Facts.mem_embeddings_of_collect hcollect h
  obtain ⟨hd, hentity⟩ := List.mem_filter.mp hd
  exact ⟨d.name, embeddingOf_of_partFacts (.own hd hentity rfl) hG hmem⟩

/-- An edge lands where its chain ends. -/
theorem Mapping.exists_landing {e : Embedding} (h : e ∈ F.embeddings) :
    ∃ root, e.landing = chainEnd e.chain root := by
  obtain ⟨root, _, _, _, _, -, -, rfl⟩ := embeddingOf_of_mem hfacts ht h
  exact ⟨root, rfl⟩

end IndexSync
