import Mathlib.Data.List.Forall2
import IndexSync.Mapping.Segment

/-!
# Successful computations

What it takes for a computation with errors to succeed: a sequence succeeds
when its parts do, one after another.

- `Except.bind_eq_ok`, `List.forM_eq_ok`, `List.mapM_eq_ok` — sequences, checks
  of all members, and member by member results.
- `Facts.collect_eq_ok` — collected facts are the facts of the members.
-/

theorem Except.bind_eq_ok {x : Except ε α} {f : α → Except ε β} {b : β} :
    x >>= f = .ok b ↔ ∃ a, x = .ok a ∧ f a = .ok b := by
  cases x with
  | error e => simp [bind, Except.bind]
  | ok a => simp [bind, Except.bind]

theorem Except.bind_eq_error {x : Except ε α} {f : α → Except ε β} {e : ε} :
    x >>= f = .error e ↔ x = .error e ∨ ∃ a, x = .ok a ∧ f a = .error e := by
  cases x with
  | error e' => simp [bind, Except.bind]
  | ok a => simp [bind, Except.bind]

theorem Except.bind_congr_of_ok {x : Except ε α} {f g : α → Except ε β}
    (h : ∀ a, x = .ok a → f a = g a) : x >>= f = x >>= g := by
  cases x with
  | error e => rfl
  | ok a => exact h a rfl

/-- A check comes first. -/
theorem Except.check_bind_eq_ok {x : Except ε Unit} {f : Unit → Except ε β} {b : β} :
    x >>= f = .ok b ↔ x = .ok () ∧ f () = .ok b := by
  rw [Except.bind_eq_ok]
  exact ⟨fun ⟨_, hx, hf⟩ => ⟨hx, hf⟩, fun ⟨hx, hf⟩ => ⟨(), hx, hf⟩⟩

theorem Except.pure_eq_ok {a b : α} : (pure a : Except ε α) = .ok b ↔ a = b := by
  simp [pure, Except.pure]

theorem Except.mapError_eq_ok {x : Except ε α} {f : ε → ε'} {a : α} :
    x.mapError f = .ok a ↔ x = .ok a := by
  cases x <;> simp [Except.mapError]

theorem List.foldlM_cons_eq_ok {f : σ → α → Except ε σ} {s t : σ} {a : α} {l : List α} :
    (a :: l).foldlM f s = .ok t ↔ ∃ u, f s a = .ok u ∧ l.foldlM f u = .ok t := by
  rw [List.foldlM_cons, Except.bind_eq_ok]

theorem List.foldlM_nil_eq_ok {f : σ → α → Except ε σ} {s t : σ} :
    ([] : List α).foldlM f s = .ok t ↔ s = t := by
  rw [List.foldlM_nil, Except.pure_eq_ok]

/-- A check of all members succeeds when each check does. -/
theorem List.forM_eq_ok {f : α → Except ε Unit} {l : List α} :
    l.forM f = .ok () ↔ ∀ a ∈ l, f a = .ok () := by
  induction l with
  | nil => simp [pure, Except.pure]
  | cons a l ih =>
      show (f a >>= fun _ => l.forM f) = .ok () ↔ _
      rw [Except.bind_eq_ok]
      simp only [List.mem_cons, forall_eq_or_imp, ih]
      constructor
      · rintro ⟨_, ha, hl⟩
        exact ⟨ha, hl⟩
      · rintro ⟨ha, hl⟩
        exact ⟨(), ha, hl⟩

theorem List.mapM_eq_ok {f : α → Except ε β} {l : List α} {bs : List β} :
    l.mapM f = .ok bs ↔ List.Forall₂ (fun a b => f a = .ok b) l bs := by
  induction l generalizing bs with
  | nil =>
      rw [List.mapM_nil, Except.pure_eq_ok, List.forall₂_nil_left_iff]
      exact eq_comm
  | cons a l ih =>
      rw [List.mapM_cons, Except.bind_eq_ok, List.forall₂_cons_left_iff]
      constructor
      · rintro ⟨b, hb, h⟩
        obtain ⟨bs', hbs, h⟩ := Except.bind_eq_ok.mp h
        exact ⟨b, bs', hb, ih.mp hbs, (Except.pure_eq_ok.mp h).symm⟩
      · rintro ⟨b, bs', hb, hbs, rfl⟩
        exact ⟨b, hb, Except.bind_eq_ok.mpr ⟨bs', ih.mpr hbs, rfl⟩⟩

theorem List.Forall₂.exists_right {R : α → β → Prop} {as : List α} {bs : List β}
    (h : List.Forall₂ R as bs) {a : α} (ha : a ∈ as) : ∃ b ∈ bs, R a b := by
  induction h with
  | nil => cases ha
  | @cons a' b as bs hab _ ih =>
      rcases List.mem_cons.mp ha with rfl | ha
      · exact ⟨b, List.mem_cons_self, hab⟩
      · obtain ⟨b', hb', hab'⟩ := ih ha
        exact ⟨b', List.mem_cons_of_mem _ hb', hab'⟩

theorem List.Forall₂.exists_left {R : α → β → Prop} {as : List α} {bs : List β}
    (h : List.Forall₂ R as bs) {b : β} (hb : b ∈ bs) : ∃ a ∈ as, R a b :=
  h.flip.exists_right hb

theorem List.Forall₂.imp_of_mem {R S : α → β → Prop} {as : List α} {bs : List β}
    (h : List.Forall₂ R as bs) (himp : ∀ a ∈ as, ∀ b, R a b → S a b) : List.Forall₂ S as bs := by
  induction h with
  | nil => exact .nil
  | @cons a b as bs hab _ ih =>
      obtain ⟨hfirst, hrest⟩ := List.forall_mem_cons.mp himp
      exact .cons (hfirst b hab) (ih hrest)

theorem List.forall₂_congr_of_mem {R S : α → β → Prop} {as : List α} {bs : List β}
    (h : ∀ a ∈ as, ∀ b, R a b ↔ S a b) : List.Forall₂ R as bs ↔ List.Forall₂ S as bs :=
  ⟨fun hR => hR.imp_of_mem fun a ha b => (h a ha b).mp,
    fun hS => hS.imp_of_mem fun a ha b => (h a ha b).mpr⟩

namespace IndexSync.Facts

@[simp] theorem triggers_append (F G : Facts) : (F ++ G).triggers = F.triggers ++ G.triggers := rfl

@[simp] theorem embeddings_append (F G : Facts) :
    (F ++ G).embeddings = F.embeddings ++ G.embeddings := rfl

@[simp] theorem triggers_ofTriggers (ts : List Trigger) : (ofTriggers ts).triggers = ts := rfl

@[simp] theorem embeddings_ofTriggers (ts : List Trigger) : (ofTriggers ts).embeddings = [] := rfl

theorem collect_congr {f g : α → Except ε Facts} {l : List α} (h : ∀ a ∈ l, f a = g a) :
    collect l f = collect l g := by
  suffices go : ∀ start : Facts, l.foldlM (fun facts x => return facts ++ (← f x)) start =
      l.foldlM (fun facts x => return facts ++ (← g x)) start from go empty
  induction l with
  | nil =>
      intro _
      rfl
  | cons a l ih =>
      obtain ⟨ha, hl⟩ := List.forall_mem_cons.mp h
      intro start
      rw [List.foldlM_cons, List.foldlM_cons, ha]
      exact congrArg _ (funext fun facts => ih hl facts)

/-- Collected facts are the facts of the members, in order. -/
theorem collect_eq_ok {f : α → Except ε Facts} {l : List α} {F : Facts}
    (h : collect l f = .ok F) :
    ∃ Gs, List.Forall₂ (fun a G => f a = .ok G) l Gs ∧
      F.triggers = Gs.flatMap (·.triggers) ∧ F.embeddings = Gs.flatMap (·.embeddings) := by
  suffices go : ∀ (l : List α) (start F : Facts),
      l.foldlM (fun facts x => return facts ++ (← f x)) start = .ok F →
      ∃ Gs, List.Forall₂ (fun a G => f a = .ok G) l Gs ∧
        F.triggers = start.triggers ++ Gs.flatMap (·.triggers) ∧
        F.embeddings = start.embeddings ++ Gs.flatMap (·.embeddings) by
    simpa [empty] using go l empty F h
  intro l
  induction l with
  | nil =>
      intro start F h
      cases List.foldlM_nil_eq_ok.mp h
      exact ⟨[], .nil, by simp, by simp⟩
  | cons a l ih =>
      intro start F h
      obtain ⟨_, hu, hl⟩ := List.foldlM_cons_eq_ok.mp h
      obtain ⟨G, hG, hu⟩ := Except.bind_eq_ok.mp hu
      cases Except.pure_eq_ok.mp hu
      obtain ⟨Gs, hGs, ht, he⟩ := ih _ F hl
      exact ⟨G :: Gs, .cons hG hGs, by simp [ht], by simp [he]⟩

/-- Every member gives its facts to the collection. -/
theorem exists_of_collect {f : α → Except ε Facts} {l : List α} {F : Facts}
    (h : collect l f = .ok F) {a : α} (ha : a ∈ l) :
    ∃ G, f a = .ok G ∧ G.triggers ⊆ F.triggers ∧ G.embeddings ⊆ F.embeddings := by
  obtain ⟨Gs, hGs, ht, he⟩ := collect_eq_ok h
  obtain ⟨G, hG, hf⟩ := List.Forall₂.exists_right hGs ha
  refine ⟨G, hf, fun t htG => ?_, fun e heG => ?_⟩
  · rw [ht]
    exact List.mem_flatMap.mpr ⟨G, hG, htG⟩
  · rw [he]
    exact List.mem_flatMap.mpr ⟨G, hG, heG⟩

/-- A collected trigger is one of some member. -/
theorem mem_triggers_of_collect {f : α → Except ε Facts} {l : List α} {F : Facts}
    (h : collect l f = .ok F) {t : Trigger} (ht : t ∈ F.triggers) :
    ∃ a ∈ l, ∃ G, f a = .ok G ∧ t ∈ G.triggers := by
  obtain ⟨Gs, hGs, hF, -⟩ := collect_eq_ok h
  obtain ⟨G, hG, htG⟩ := List.mem_flatMap.mp (hF ▸ ht)
  obtain ⟨a, ha, hf⟩ := List.Forall₂.exists_left hGs hG
  exact ⟨a, ha, G, hf, htG⟩

/-- A collected embedding is one of some member. -/
theorem mem_embeddings_of_collect {f : α → Except ε Facts} {l : List α} {F : Facts}
    (h : collect l f = .ok F) {e : Embedding} (he : e ∈ F.embeddings) :
    ∃ a ∈ l, ∃ G, f a = .ok G ∧ e ∈ G.embeddings := by
  obtain ⟨Gs, hGs, -, hF⟩ := collect_eq_ok h
  obtain ⟨G, hG, heG⟩ := List.mem_flatMap.mp (hF ▸ he)
  obtain ⟨a, ha, hf⟩ := List.Forall₂.exists_left hGs hG
  exact ⟨a, ha, G, hf, heG⟩

end IndexSync.Facts
