import IndexSync.Proofs.Schema.Chains

/-!
# Chains of supertypes from one table

A schema asks for the chains of all its types.  They need not be searched for one by one: a
table keeps the chain of each type, and a type that is met again has its chain looked up.

- `remember`, `rememberAll` — the search that fills the table.
- `remembers_of_closes`, `fails_alike` — for one type: where the search of its own ends, so
  does this one, with the same chain or the same error.
- `ofDefinitions_eq_rememberAll` — so a schema can be made from the table.
-/

namespace IndexSync.Schema

/-- Chains by the type that they start with. -/
abbrev KnownChains := SortedMap TypeName (List TypeName)

/-- Adds the names of another chain that are not there yet, one by one. -/
def addChain (chain more : List TypeName) : List TypeName :=
  more.foldl (fun chain name => if name ∈ chain then chain else chain ++ [name]) chain

/-- Has the chain of a supertype searched for, and adds it to the chain at hand. -/
def addSuper (search : KnownChains → TypeName → Except DataError KnownChains)
    (state : List TypeName × KnownChains) (super : TypeName) :
    Except DataError (List TypeName × KnownChains) := do
  let known ← search state.2 super
  return (addChain state.1 (known.getD super []), known)

/-- Enters the chain of a type, after those of the types that it inherits from, while the
supertypes of `visiting` are being followed.  These are distinct, so a depth beyond the number
of types is never used up. -/
def remember (ds : List TypeDef) :
    Nat → (visiting : List TypeName) → KnownChains → TypeName → Except DataError KnownChains
  | 0, _, _, name => .error (.inheritanceCycle name)
  | depth + 1, visiting, known, name =>
    if name ∈ known then .ok known
    else if name ∈ visiting then .error (.inheritanceCycle name)
    else
      match findDefinition? ds name with
      | none => .error (.unknownType name)
      | some d => do
        let (chain, known) ←
          d.supertypes.foldlM (addSuper (remember ds depth (name :: visiting))) ([name], known)
        return known.insert name chain

/-- The chains of all types, in declaration order. -/
def rememberAll (ds : List TypeDef) : Except DataError KnownChains :=
  (ds.map (·.name)).foldlM (remember ds (ds.length + 1) []) ∅

variable {ds : List TypeDef} {name : TypeName}

theorem remember_of_new {depth : Nat} {visiting : List TypeName} {known : KnownChains}
    {d : TypeDef} (hd : findDefinition? ds name = some d) (hknown : name ∉ known)
    (hvisiting : name ∉ visiting) :
    remember ds (depth + 1) visiting known name =
      (d.supertypes.foldlM (addSuper (remember ds depth (name :: visiting))) ([name], known)).map
        fun state => state.2.insert name state.1 := by
  rw [remember, if_neg hknown, if_neg hvisiting, hd]
  rfl

/-! ## Types with a chain -/

theorem addChain_eq {chain more : List TypeName} (h : more.Nodup) :
    addChain chain more = chain ++ more.filter (· ∉ chain) := by
  induction more generalizing chain with
  | nil => simp [addChain]
  | cons name more ih =>
      obtain ⟨hname, hmore⟩ := List.nodup_cons.mp h
      show addChain (if name ∈ chain then chain else chain ++ [name]) more = _
      by_cases hin : name ∈ chain
      · rw [if_pos hin, ih hmore, List.filter_cons_of_neg (by simpa using hin)]
      · have hrest : more.filter (· ∉ chain ++ [name]) = more.filter (· ∉ chain) := by
          apply List.filter_congr
          intro t ht
          have hne : t ≠ name := fun heq => hname (heq ▸ ht)
          simp [hne]
        rw [if_neg hin, ih hmore, hrest, List.filter_cons_of_pos (by simpa using hin),
          List.append_assoc]
        rfl

/-- Whatever is in the table is the chain of a type that has one. -/
def Sound (ds : List TypeDef) (known : KnownChains) : Prop :=
  ∀ t c, known[t]? = some c → Closes ds t ∧ c = chainIn ds t

theorem sound_empty : Sound ds ∅ := by simp [Sound]

theorem Sound.closes {known : KnownChains} (h : Sound ds known) (hname : name ∈ known) :
    Closes ds name :=
  (h name _ (Std.ExtTreeMap.getElem?_eq_some_getElem hname)).1

theorem Sound.getD_eq {known : KnownChains} (h : Sound ds known) (hname : name ∈ known) :
    known.getD name [] = chainIn ds name := by
  have hfound := Std.ExtTreeMap.getElem?_eq_some_getElem hname
  rw [Std.ExtTreeMap.getD_eq_getD_getElem?, hfound, Option.getD_some]
  exact (h name _ hfound).2

/-- What a search for the chains of `names` makes of a table. -/
structure Remembers (ds : List TypeDef) (known : KnownChains) (names : List TypeName)
    (known' : KnownChains) : Prop where
  sound : Sound ds known'
  keeps : ∀ t ∈ known, t ∈ known'
  adds : ∀ n ∈ names, n ∈ known'

theorem Remembers.cons {known mid known' : KnownChains} {n : TypeName} {names : List TypeName}
    (h : Remembers ds known [n] mid) (h' : Remembers ds mid names known') :
    Remembers ds known (n :: names) known' where
  sound := h'.sound
  keeps := fun t ht => h'.keeps t (h.keeps t ht)
  adds := by
    intro t ht
    rcases List.mem_cons.mp ht with rfl | ht
    · exact h'.keeps t (h.adds t List.mem_cons_self)
    · exact h'.adds t ht

theorem Remembers.insert {known known' : KnownChains} {names : List TypeName}
    (h : Remembers ds known names known') (hname : Closes ds name) :
    Remembers ds known [name] (known'.insert name (chainIn ds name)) where
  sound := by
    intro t c ht
    rw [Std.ExtTreeMap.getElem?_insert] at ht
    split at ht
    · rename_i heq
      obtain rfl := Std.LawfulEqOrd.eq_of_compare heq
      exact ⟨hname, (Option.some.inj ht).symm⟩
    · exact h.sound t c ht
  keeps := fun t ht => Std.ExtTreeMap.mem_insert.mpr (.inr (h.keeps t ht))
  adds := by simp

/-- Supertypes that are searched for successfully have their chains merged. -/
theorem exists_addSupers {search : KnownChains → TypeName → Except DataError KnownChains}
    {names : List TypeName} (hcloses : ∀ s ∈ names, Closes ds s)
    (hsearch : ∀ s ∈ names, ∀ known, Sound ds known →
      ∃ known', search known s = .ok known' ∧ Remembers ds known [s] known') :
    ∀ chain known, Sound ds known →
      ∃ known', names.foldlM (addSuper search) (chain, known) =
        .ok (merged (chainIn ds) chain names, known') ∧ Remembers ds known names known' := by
  induction names with
  | nil =>
      intro chain known hsound
      exact ⟨known, rfl, hsound, fun _ => id, by simp⟩
  | cons s names ih =>
      intro chain known hsound
      obtain ⟨mid, hmid, hs⟩ := hsearch s List.mem_cons_self known hsound
      obtain ⟨known', hrest, hnames⟩ :=
        ih (fun k hk => hcloses k (List.mem_cons_of_mem _ hk))
          (fun k hk => hsearch k (List.mem_cons_of_mem _ hk))
          (chain ++ (chainIn ds s).filter (· ∉ chain)) mid hs.sound
      have hnodup : (chainIn ds s).Nodup :=
        nodup_of_chainOf (hcloses s List.mem_cons_self).chainOf_eq
      have hstep : addSuper search (chain, known) s =
          .ok (chain ++ (chainIn ds s).filter (· ∉ chain), mid) := by
        rw [addSuper, hmid, ← addChain_eq hnodup,
          ← hs.sound.getD_eq (hs.adds s List.mem_cons_self)]
        rfl
      exact ⟨known', List.foldlM_cons_eq_ok.mpr ⟨_, hstep, hrest⟩, hs.cons hnames⟩

/-- The chain of a type that has one is found and entered, as far as it was not known. -/
theorem remembers_of_closes (h : Closes ds name) :
    ∀ {depth visiting known}, LineAbove ds visiting name → ds.length < depth + visiting.length →
      Sound ds known →
      ∃ known', remember ds depth visiting known name = .ok known' ∧
        Remembers ds known [name] known' := by
  induction h with
  | @intro name d hd hsupers ih =>
      intro depth visiting known hline hdeep hsound
      have hcloses : Closes ds name := .intro hd hsupers
      have hnew : name ∉ visiting := fun hmem =>
        hcloses.grounded.acyclic (hline.inherits name hmem)
      cases depth with
      | zero => exact absurd hline.length_le (by omega)
      | succ depth =>
          by_cases hknown : name ∈ known
          · rw [remember, if_pos hknown]
            exact ⟨known, rfl, hsound, fun _ => id, by simpa using hknown⟩
          · have hsearch : ∀ s ∈ d.supertypes, ∀ known, Sound ds known →
                ∃ known', remember ds depth (name :: visiting) known s = .ok known' ∧
                  Remembers ds known [s] known' := by
              intro s hs known hsound
              apply ih s hs (hline.cons hnew ⟨d, hd, hs⟩) _ hsound
              rw [List.length_cons]
              omega
            obtain ⟨known', hsupers', hremembers⟩ :=
              exists_addSupers hsupers hsearch [name] known hsound
            rw [← hcloses.chainIn_eq_merged hd] at hsupers'
            rw [remember_of_new hd hknown hnew, hsupers']
            exact ⟨_, rfl, hremembers.insert hcloses⟩

/-! ## Types without one -/

/-- A chain in the middle of a search. -/
structure Underway (ds : List TypeDef) (above chain : List TypeName) : Prop where
  closed : ClosedBut ds above chain
  closes : ∀ t ∈ chain, t ∉ above → Closes ds t

theorem Underway.enter {above chain : List TypeName} (h : Underway ds above chain)
    (name : TypeName) : Underway ds (name :: above) (chain ++ [name]) where
  closed := h.closed.enter name
  closes := by
    intro t ht hta
    rw [List.mem_cons, not_or] at hta
    rcases List.mem_append.mp ht with ht | ht
    · exact h.closes t ht hta.2
    · exact absurd (List.mem_singleton.mp ht) hta.1

theorem Underway.extend {depth : Nat} {above chain chain' : List TypeName}
    (h : Underway ds above chain) (hname : Closes ds name)
    (hstep : extendChain ds depth above chain name = .ok chain') : Underway ds above chain' where
  closed := (follows_extendChain hstep).closed h.closed
  closes := by
    intro t ht hta
    rcases (follows_extendChain hstep).inherits t ht with ht | ⟨n, hn, hnt⟩
    · exact h.closes t ht hta
    · exact (List.mem_singleton.mp hn ▸ hname).of_inherits hnt

/-- Both searches fail alike for the type, from any chain and any table. -/
def FailsAlike (ds : List TypeDef) (depth : Nat) (above : List TypeName) (name : TypeName) : Prop :=
  ∃ e, (∀ chain, Underway ds above chain → extendChain ds depth above chain name = .error e) ∧
    ∀ known, Sound ds known → remember ds depth above known name = .error e

/-- The first of several types that has no chain makes both searches fail. -/
theorem fails_alike_foldlM {depth : Nat} {above names : List TypeName}
    (hline : ∀ s ∈ names, LineAbove ds above s) (hdeep : ds.length < depth + above.length)
    (hfails : ∀ s ∈ names, ¬ Closes ds s → FailsAlike ds depth above s)
    (hnone : ∃ s ∈ names, ¬ Closes ds s) :
    ∃ e, (∀ chain, Underway ds above chain →
        names.foldlM (extendChain ds depth above) chain = .error e) ∧
      ∀ chain known, Sound ds known →
        names.foldlM (addSuper (remember ds depth above)) (chain, known) = .error e := by
  induction names with
  | nil =>
      obtain ⟨s, hs, -⟩ := hnone
      cases hs
  | cons s names ih =>
      have hs := hline s List.mem_cons_self
      by_cases hcloses : Closes ds s
      · have hlater : ∃ s ∈ names, ¬ Closes ds s := by
          obtain ⟨t, ht, hnot⟩ := hnone
          rcases List.mem_cons.mp ht with rfl | ht
          · exact absurd hcloses hnot
          · exact ⟨t, ht, hnot⟩
        obtain ⟨e, hchains, htables⟩ :=
          ih (fun k hk => hline k (List.mem_cons_of_mem _ hk))
            (fun k hk => hfails k (List.mem_cons_of_mem _ hk)) hlater
        refine ⟨e, fun chain hchain => ?_, fun chain known hsound => ?_⟩
        · have hstep := hcloses.addsChain hs hdeep hchain.closed
          rw [List.foldlM_cons, hstep]
          exact hchains _ (hchain.extend hcloses hstep)
        · obtain ⟨mid, hmid, hremembers⟩ := remembers_of_closes hcloses hs hdeep hsound
          rw [List.foldlM_cons, addSuper, hmid]
          exact htables _ mid hremembers.sound
      · obtain ⟨e, hchain, htable⟩ := hfails s List.mem_cons_self hcloses
        refine ⟨e, fun chain hunderway => ?_, fun chain known hsound => ?_⟩
        · rw [List.foldlM_cons, hchain chain hunderway]
          rfl
        · rw [List.foldlM_cons, addSuper, htable known hsound]
          rfl

/-- For a type without a chain, both searches stop at the same place: where one of the types
above is met again, or one that is not declared. -/
theorem fails_alike (h : ¬ Closes ds name) :
    ∀ {depth above}, LineAbove ds above name → ds.length < depth + above.length →
      FailsAlike ds depth above name := by
  intro depth
  induction depth generalizing name with
  | zero =>
      intro above hline hdeep
      exact absurd hline.length_le (by omega)
  | succ depth ih =>
      intro above hline hdeep
      have hunknown : ∀ known, Sound ds known → name ∉ known := fun _ hsound hmem =>
        h (hsound.closes hmem)
      by_cases habove : name ∈ above
      · refine ⟨.inheritanceCycle name, fun chain _ => ?_, fun known hsound => ?_⟩
        · rw [extendChain, if_pos habove]
        · rw [remember, if_neg (hunknown known hsound), if_pos habove]
      have hnew : ∀ chain, Underway ds above chain → name ∉ chain := fun _ hchain hmem =>
        h (hchain.closes name hmem habove)
      cases hd : findDefinition? ds name with
      | none =>
          refine ⟨.unknownType name, fun chain hchain => ?_, fun known hsound => ?_⟩
          · rw [extendChain, if_neg habove, if_neg (hnew chain hchain), hd]
          · rw [remember, if_neg (hunknown known hsound), if_neg habove, hd]
      | some d =>
          have hline' : ∀ s ∈ d.supertypes, LineAbove ds (name :: above) s := fun s hs =>
            hline.cons habove ⟨d, hd, hs⟩
          have hdeep' : ds.length < depth + (name :: above).length := by
            rw [List.length_cons]
            omega
          have hnone : ∃ s ∈ d.supertypes, ¬ Closes ds s := by
            by_contra hall
            exact h (.intro hd fun s hs => by_contra fun hs' => hall ⟨s, hs, hs'⟩)
          obtain ⟨e, hchains, htables⟩ := fails_alike_foldlM hline' hdeep'
            (fun s hs hs' => ih hs' (hline' s hs) hdeep') hnone
          refine ⟨e, fun chain hchain => ?_, fun known hsound => ?_⟩
          · rw [extendChain_of_new hd habove (hnew chain hchain)]
            exact hchains _ (hchain.enter name)
          · rw [remember_of_new hd (hunknown known hsound) habove, htables [name] known hsound]
            rfl

/-! ## All types -/

/-- Types searched for one by one, and entered into a table one by one. -/
theorem foldlM_remember_cases (names : List TypeName) :
    ∀ known, Sound ds known →
      (∃ known', names.foldlM (remember ds (ds.length + 1) []) known = .ok known' ∧
        Remembers ds known names known' ∧
        names.mapM (chainOf ds) = .ok (names.map (chainIn ds))) ∨
      ∃ e, names.foldlM (remember ds (ds.length + 1) []) known = .error e ∧
        names.mapM (chainOf ds) = .error e := by
  induction names with
  | nil => exact fun known hsound => .inl ⟨known, rfl, ⟨hsound, fun _ => id, by simp⟩, rfl⟩
  | cons name names ih =>
      intro known hsound
      have hdeep : ds.length < ds.length + 1 + ([] : List TypeName).length := Nat.lt_succ_self _
      by_cases hcloses : Closes ds name
      · obtain ⟨mid, hmid, hname⟩ := remembers_of_closes hcloses .nil hdeep hsound
        rw [List.foldlM_cons, hmid, List.mapM_cons, hcloses.chainOf_eq]
        rcases ih mid hname.sound with ⟨known', htable, hnames, hchains⟩ | ⟨e, htable, hchains⟩
        · exact .inl ⟨known', htable, hname.cons hnames, by rw [hchains]; rfl⟩
        · exact .inr ⟨e, htable, by rw [hchains]; rfl⟩
      · obtain ⟨e, hchain, htable⟩ := fails_alike hcloses .nil hdeep
        have hunderway : Underway ds [] [] := ⟨closedBut_nil, by simp⟩
        refine .inr ⟨e, ?_, ?_⟩
        · rw [List.foldlM_cons, htable known hsound]
          rfl
        · rw [List.mapM_cons, chainOf, hchain [] hunderway]
          rfl

/-- The table has the chains that are found one by one, and is not made if one of them is
not found. -/
theorem map_rememberAll (ds : List TypeDef) :
    (rememberAll ds).map (fun known => ds.map fun d => known.getD d.name []) =
      ds.mapM fun d => chainOf ds d.name := by
  have hnames : (ds.mapM fun d => chainOf ds d.name) = (ds.map (·.name)).mapM (chainOf ds) :=
    List.mapM_map.symm
  rw [rememberAll, hnames]
  rcases foldlM_remember_cases (ds.map (·.name)) ∅ sound_empty with
    ⟨known, htable, hremembers, hchains⟩ | ⟨e, htable, hchains⟩
  · rw [htable, hchains, List.map_map]
    refine congrArg Except.ok (List.map_congr_left fun d hd => ?_)
    exact hremembers.sound.getD_eq (hremembers.adds _ (List.mem_map_of_mem hd))
  · rw [htable, hchains]
    rfl

/-- A schema is made of the table as of the chains, and its definitions are refused for the
same reason. -/
theorem ofDefinitions_eq_rememberAll (ds : List TypeDef) :
    ofDefinitions ds = do
      checkNames [] ds
      checkSupertypes ds
      let known ← rememberAll ds
      let zipped := ds.map fun d => (d, known.getD d.name [])
      return { types := zipped.map (entry ds zipped) } := by
  rw [ofDefinitions, ← map_rememberAll]
  cases rememberAll ds with
  | error e => rfl
  | ok known =>
      simp only [List.map_prod_left_eq_zip]
      rfl

end IndexSync.Schema
