import IndexSync.Proofs.Tree.Arrivals
import IndexSync.Proofs.Tree.Update
import IndexSync.Sample.Parties

/-!
# Relevant paths and filters

The paths relevant to a type are numbered before its tree is laid out, and branches that lead
nowhere are left out only then.  A filter asks for a path if what remains begins like some
sequence of the path; a path all of whose sequences have gone is still among the relevant ones.

- `Branches.of_filter`, `Tree.exists_of_filter` — what the filters in reach ask for.
- `Tree.exists_filter` — where something remains of a branch, its filter does.
- `ChangeTree.asks_iff_begun` — the paths that filters ask for, path by path.
- `ChangeTree.supplier_never_asks` — a type with a relevant path and without any node.
-/

namespace IndexSync

open Relation (ReflTransGen)

namespace Layout

variable {schema : Schema} {mapping : Mapping schema} {l : Layout} {rule : FilterRule}
  {relevance : OrdinalSet} {ended : Option OrdinalSet} {continuation id? : Option NodeId}
  {ids : List NodeId} {id k u nested : NodeId} {static c : TypeName} {concretes : List TypeName}

/-! ## Single nodes -/

theorem Filters.of_always (h : l.Filters .always relevance (some id) (some u)) :
    l.arena.get? u = some (.ifDirty relevance id) := by
  cases h with
  | free hn => cases hn
  | behind _ hu => exact hu

theorem Joins.reaches (h : l.Joins ids (some u)) (hid : id ∈ ids) : l.arena.Reaches u id := by
  cases h with
  | one =>
      cases List.mem_singleton.mp hid
      exact .refl
  | union hu => exact .single ⟨_, hu, hid⟩

/-- A filter in reach of joined nodes is in reach of one of them. -/
theorem Joins.of_reaches (h : l.Joins ids (some u)) (hreach : l.arena.Reaches u k)
    (hfilter : l.arena.get? k = some (.ifDirty relevance nested)) :
    ∃ id ∈ ids, l.arena.Reaches id k := by
  cases h with
  | one => exact ⟨u, List.mem_singleton_self u, hreach⟩
  | union hu =>
      rcases hreach.cases_head with rfl | ⟨next, ⟨node, hnode, hnext⟩, hrest⟩
      · cases hu.symm.trans hfilter
      · cases hu.symm.trans hnode
        exact ⟨next, hnext, hrest⟩

/-- What there is to do at a type is in reach of the landing. -/
theorem Lands.exists_reaching (h : l.Lands rule static concretes ended continuation id?)
    (hc : c ∈ concretes) :
    ∃ own, l.Owns rule c ended own ∧ ∀ v ∈ own.toList ++ continuation.toList,
      ∃ id ∈ id?, l.arena.Reaches id v := by
  cases h with
  | nowhere hall =>
      obtain ⟨own, hown, hjoin⟩ := hall c hc
      have hnil : own.toList ++ continuation.toList = [] := by
        generalize own.toList ++ continuation.toList = ids at hjoin
        cases hjoin
        rfl
      exact ⟨own, hown, by simp [hnil]⟩
  | @somewhere root dispatch hu hall hkeys =>
      obtain ⟨own, hown, hjoin⟩ := hall c hc
      refine ⟨own, hown, fun v hv => ⟨root, rfl, ?_⟩⟩
      obtain ⟨entry, hentry⟩ := hjoin.exists_of_mem hv
      rw [hentry] at hjoin
      exact .head ⟨_, hu, SortedMap.mem_contents hentry⟩ (hjoin.reaches hv)

/-- A filter in reach of a landing is in reach of what there is to do at one of its types. -/
theorem Lands.of_reaches (h : l.Lands rule static concretes ended continuation (some id))
    (hreach : l.arena.Reaches id k)
    (hfilter : l.arena.get? k = some (.ifDirty relevance nested)) :
    ∃ c ∈ concretes, (∃ own, l.Owns rule c ended (some own) ∧ l.arena.Reaches own k) ∨
      ∃ v, continuation = some v ∧ l.arena.Reaches v k := by
  obtain ⟨dispatch, hid, hall⟩ := h.next
  rcases hreach.cases_head with rfl | ⟨next, ⟨node, hnode, hnext⟩, hrest⟩
  · cases hid.symm.trans hfilter
  · cases hid.symm.trans hnode
    obtain ⟨c, hc, own, hown, hjoin⟩ := hall next hnext
    obtain ⟨v, hv, hv'⟩ := hjoin.of_reaches hrest hfilter
    refine ⟨c, hc, ?_⟩
    rcases List.mem_append.mp hv with hv | hv
    · cases Option.mem_toList.mp hv
      exact .inl ⟨v, hown, hv'⟩
    · exact .inr ⟨v, Option.mem_toList.mp hv, hv'⟩

/-! ## Trees with filters -/

variable (hsound : l.Sound mapping []) {t : Trie} {S : SequenceSet} {n : Nat}
include hsound

/-- A filter in reach of branches asks for ordinals of one of them, and this one leads
somewhere. -/
theorem Branches.of_filter (hmerge : t.Merges S) (h : l.Branches schema .always t.branches ids)
    (hid : id ∈ ids) (hreach : l.arena.Reaches id k)
    (hfilter : l.arena.get? k = some (.ifDirty relevance nested))
    (hn : relevance.contains n = true) :
    ∃ move, (∃ ms bits, S (move :: ms) bits ∧ bits.contains n = true) ∧
      ∃ ms bits, S (move :: ms) bits ∧ mapping.Viable (move :: ms) := by
  have harranged := (h.front hsound hmerge FilterRule.always_bounds).arranged id hid
  cases hmerge with
  | fork _ _ _ _ hunion hnext =>
      obtain ⟨move, whole, t, id?, hmem, hbranch, hbelow⟩ := h.of_mem hid
      obtain ⟨v, rfl⟩ := hbelow.exists_before
      have hwhole := hbelow.of_always
      -- the filter of the branch asks for all that those within ask for
      have hcontains : whole.contains n = true := by
        rcases hreach.cases_head with rfl | ⟨next, ⟨node, hnode, hnext⟩, hrest⟩
        · cases hwhole.symm.trans hfilter
          exact hn
        · cases hwhole.symm.trans hnode
          cases List.mem_singleton.mp hnext
          have hnested := (harranged.of_ifDirty hsound hwhole).2
          exact OrdinalSet.subset_iff.mp (hnested.allows hsound hrest hfilter).1 n hn
      obtain ⟨bits, ⟨ms, hms⟩, hbits⟩ := (hunion move whole t hmem n).mp hcontains
      obtain ⟨ms', bits', hms', hviable⟩ :=
        hbranch.exists_viable hsound (hnext move whole t hmem)
      exact ⟨move, ⟨ms, bits, hms, hbits⟩, ms', bits', hms', hviable⟩

/-- The sequences that a filter in reach of the root is there for: one with the ordinal, and
one that begins like it and leads somewhere. -/
theorem Tree.exists_of_filter (hmerge : t.Merges S)
    (h : l.Tree schema .always static concretes t (some id)) (hreach : l.arena.Reaches id k)
    (hfilter : l.arena.get? k = some (.ifDirty relevance nested))
    (hn : relevance.contains n = true) :
    ∃ ms bits ms' bits', S ms bits ∧ bits.contains n = true ∧ S ms' bits' ∧
      ms'.head? = ms.head? ∧
      (ms' = [] ∧ (∃ c ∈ concretes, mapping.hasPart c = true) ∨ mapping.Viable ms') := by
  obtain ⟨ids, continuation, hids, hjoin, hland⟩ := h
  obtain ⟨c, hc, ⟨own, hown, hreach⟩ | ⟨v, rfl, hreach⟩⟩ := hland.of_reaches hreach hfilter
  · generalize hended : t.ended = ended at hown
    cases hown with
    | @ended whole _ _ hknown hbelow =>
        obtain ⟨place, rfl⟩ := hbelow.exists_before
        have hwhole := hbelow.of_always
        obtain ⟨⟨bits', hbits'⟩, hunion⟩ := hmerge.of_ended hended
        rcases hreach.cases_head with rfl | ⟨next, ⟨node, hnode, hnext⟩, hrest⟩
        · cases hwhole.symm.trans hfilter
          obtain ⟨bits, hbits, hcontains⟩ := (hunion n).mp hn
          exact ⟨[], bits, [], bits', hbits, hcontains, hbits', rfl,
            .inl ⟨rfl, c, hc, hsound.present hknown⟩⟩
        · cases hwhole.symm.trans hnode
          cases List.mem_singleton.mp hnext
          have hpart : l.IsPart place := ⟨c, hknown⟩
          exact absurd hfilter (hpart.no_filter hsound hrest)
  · obtain ⟨id', hid', hreach⟩ := hjoin.of_reaches hreach hfilter
    obtain ⟨move, ⟨ms, bits, hms, hbits⟩, ms', bits', hms', hviable⟩ :=
      hids.of_filter hsound hmerge hid' hreach hfilter hn
    exact ⟨move :: ms, bits, move :: ms', bits', hms, hbits, hms', rfl, .inr hviable⟩

/-- For a sequence that begins like one that leads somewhere, there is a filter in reach of the
root that asks for its ordinals. -/
theorem Tree.exists_filter {root : Option NodeId} {ms ms' : List Move} {bits bits' : OrdinalSet}
    (hmerge : t.Merges S) (h : l.Tree schema .always static concretes t root)
    (hc : c ∈ concretes) (hms : S ms bits) (hn : bits.contains n = true) (hms' : S ms' bits')
    (hhead : ms'.head? = ms.head?)
    (hend : ms' = [] ∧ mapping.hasPart c = true ∨ mapping.Viable ms') :
    ∃ id ∈ root, ∃ k relevance nested, l.arena.Reaches id k ∧
      l.arena.get? k = some (.ifDirty relevance nested) ∧ relevance.contains n = true := by
  obtain ⟨ids, continuation, hids, hjoin, hland⟩ := h
  obtain ⟨own, hown, hreaching⟩ := hland.exists_reaching hc
  cases ms with
  | nil =>
      obtain rfl : ms' = [] := List.head?_eq_none_iff.mp hhead
      obtain ⟨-, hpart⟩ := hend.resolve_right (fun hviable => hviable)
      obtain ⟨relevance, hended, hunion⟩ := hmerge.exists_ended hms
      rw [hended] at hown
      cases hown with
      | @ended _ part _ hknown hfilter =>
          cases part with
          | none => exact absurd (hpart.symm.trans (hsound.absent hknown)) nofun
          | some place =>
              obtain ⟨u, rfl⟩ := hfilter.exists_behind
              obtain ⟨id, hid, hreach⟩ := hreaching u (by simp)
              exact ⟨id, hid, u, relevance, place, hreach, hfilter.of_always,
                (hunion n).mpr ⟨bits, hms, hn⟩⟩
  | cons move ms =>
      cases ms' with
      | nil => cases hhead
      | cons move' ms' =>
          obtain rfl : move' = move := Option.some.inj hhead
          have hviable := hend.resolve_left nofun
          obtain ⟨relevance, next, hmem, hunion, hnext⟩ := hmerge.exists_branch hms
          obtain ⟨id?, here, hbranch, hfilter, hsub⟩ := hids.exists_node hmem
          obtain ⟨v, rfl⟩ := hbranch.exists_node hsound hnext hms' hviable
          obtain ⟨u, rfl⟩ := hfilter.exists_behind
          have hu : u ∈ ids := hsub (by simp)
          obtain ⟨w, rfl⟩ := hjoin.exists_of_mem hu
          obtain ⟨id, hid, hreach⟩ := hreaching w (by simp)
          exact ⟨id, hid, u, relevance, v, hreach.trans (hjoin.reaches hu), hfilter.of_always,
            (hunion n).mpr ⟨bits, ⟨ms, hms⟩, hn⟩⟩

/-- A root stands for a sequence that leads somewhere. -/
theorem Tree.exists_ending (hmerge : t.Merges S)
    (h : l.Tree schema rule static concretes t (some id)) :
    ∃ ms bits, S ms bits ∧
      (ms = [] ∧ (∃ c ∈ concretes, mapping.hasPart c = true) ∨ mapping.Viable ms) := by
  obtain ⟨ids, continuation, hids, hjoin, hland⟩ := h
  cases hland with
  | somewhere _ hall hkeys hsome =>
      obtain ⟨c, entry, hentry⟩ := hsome
      have hc := hkeys c entry hentry
      have henter := hall c hc
      rw [hentry] at henter
      rcases henter.ended_or_continuation hsound with ⟨⟨relevance, hended⟩, hpart⟩ | ⟨k, rfl⟩
      · obtain ⟨⟨bits, hbits⟩, -⟩ := hmerge.of_ended hended
        exact ⟨[], bits, hbits, .inl ⟨rfl, c, hc, hpart⟩⟩
      · obtain ⟨i, hi⟩ := hjoin.exists_mem
        obtain ⟨move, relevance, next, id?, hmem, hbranch, hfilter⟩ := hids.of_mem hi
        obtain ⟨u, rfl⟩ := hfilter.exists_before
        cases hmerge with
        | fork _ _ _ _ _ hnext =>
            obtain ⟨ms, bits, hms, hviable⟩ :=
              hbranch.exists_viable hsound (hnext move relevance next hmem)
            exact ⟨move :: ms, bits, hms, .inr hviable⟩

end Layout

/-! ## Relevant paths -/

namespace ChangeTree

variable {defs : List TypeDef} {schema : Schema} {ds : Declarations} {mapping : Mapping schema}
  {type : TypeName} {tree : ChangeTree} {l : Layout}

/-- A filter in reach of the root asks for the path with this ordinal. -/
def Asks (tree : ChangeTree) (n : Nat) : Prop :=
  ∃ root u relevance nested, tree.root = some root ∧ tree.arena.Reaches root u ∧
    tree.arena.get? u = some (.ifDirty relevance nested) ∧ relevance.contains n = true

/-- Some trigger with this path begins like one that leads to a document part. -/
def Begun (mapping : Mapping schema) (type : TypeName) (path : String) : Prop :=
  ∃ t t', mapping.Applies type t ∧ t.dirty = path ∧ mapping.Applies type t' ∧
    t'.moves.head? = t.moves.head? ∧ mapping.EndsAtPart type t'.moves

theorem Built.asks_iff (h : tree.Built mapping true type l) {n : Nat} {path : String}
    (hpath : tree.table.paths[n]? = some path) : tree.Asks n ↔ Begun mapping type path := by
  have hmerge := Trie.merges_ofSequences (sequences mapping type).2
  have hordinal := @PathTable.ordinal?_eq_some _ (nodup_paths mapping type)
  rw [h.table] at hpath
  unfold Asks
  rw [h.arena]
  constructor
  · rintro ⟨root, u, relevance, nested, hroot, hreach, hfilter, hn⟩
    have htree := hroot ▸ h.root
    obtain ⟨ms, bits, ms', bits', hms, hbits, hms', hhead, hend⟩ :=
      htree.exists_of_filter h.sound hmerge hreach hfilter hn
    obtain ⟨t, ht, hfits, rfl, k, rfl, hdirty⟩ := mem_sequences hms
    obtain ⟨t', ht', hfits', rfl, -⟩ := mem_sequences hms'
    obtain rfl : k = n := by simpa using hbits
    refine ⟨t, t', ⟨ht, hfits⟩, ?_, ⟨ht', hfits'⟩, hhead, by simpa [Mapping.EndsAtPart] using hend⟩
    exact Option.some.inj (hdirty.symm.trans hpath)
  · rintro ⟨t, t', ⟨ht, hfits⟩, rfl, ⟨ht', hfits'⟩, hhead, hend⟩
    obtain ⟨k, hms, hdirty⟩ := exists_sequence ht hfits
    obtain ⟨k', hms', -⟩ := exists_sequence ht' hfits'
    obtain rfl : k = n :=
      Option.some.inj ((hordinal.mpr hdirty).symm.trans (hordinal.mpr hpath))
    have hk : (OrdinalSet.single k).contains k = true := by simp
    obtain ⟨root, hroot, u, relevance, nested, hreach, hfilter, hn⟩ := h.root.exists_filter h.sound
      hmerge (List.mem_singleton_self type) hms hk hms' hhead hend
    exact ⟨root, u, relevance, nested, hroot, hreach, hfilter, hn⟩

theorem Built.root_eq_none_iff (h : tree.Built mapping true type l) :
    tree.root = none ↔ ∀ t, mapping.Applies type t → ¬ mapping.EndsAtPart type t.moves := by
  constructor
  · intro hnone t ht hend
    obtain ⟨root, _, _, hroot, -⟩ := (h.arrival_iff t.moves).mpr ⟨⟨t, ht, rfl⟩, hend⟩
    exact absurd (hnone.symm.trans hroot) nofun
  · intro hdead
    cases hroot : tree.root with
    | none => rfl
    | some root =>
        have htree := hroot ▸ h.root
        obtain ⟨ms, bits, hms, hend⟩ :=
          htree.exists_ending h.sound (Trie.merges_ofSequences (sequences mapping type).2)
        obtain ⟨t, ht, hfits, rfl, -⟩ := mem_sequences hms
        exact absurd (by simpa [Mapping.EndsAtPart] using hend) (hdead t ⟨ht, hfits⟩)

/-- The paths relevant to a type are those of the triggers that apply to it.  A filter in reach
of the root asks for such a path exactly if some trigger with this path begins like one that
leads to a document part, and there is a root exactly if some trigger leads to one.  So all
relevant paths are asked for, and there are none without a root, exactly if each of them has
such a trigger. -/
theorem asks_iff_begun (hschema : Schema.ofDefinitions defs = .ok schema)
    (hcompile : Mapping.compile schema ds = .ok mapping) (type : TypeName) :
    ∃ tree, build mapping true type = .ok tree ∧
      (∀ path, path ∈ tree.relevantPaths ↔ ∃ t, mapping.Applies type t ∧ t.dirty = path) ∧
      (∀ n path, tree.relevantPaths[n]? = some path → (tree.Asks n ↔ Begun mapping type path)) ∧
      (tree.root = none ↔ ∀ t, mapping.Applies type t → ¬ mapping.EndsAtPart type t.moves) ∧
      ((∀ n, n < tree.relevantPaths.length → tree.Asks n) ∧
          (tree.root = none → tree.relevantPaths = []) ↔
        ∀ path ∈ tree.relevantPaths, Begun mapping type path) := by
  have hm := Schema.coherent_of_accepted hschema
  have hclosed := Mapping.closed_of_compile hm hcompile
  obtain ⟨tree, hbuild, hbuilt⟩ := build_layout hclosed.bounded true type
  have hasks : ∀ n path, tree.relevantPaths[n]? = some path →
      (tree.Asks n ↔ Begun mapping type path) := fun _ _ => hbuilt.asks_iff
  refine ⟨tree, hbuild, fun path => ⟨fun hpath => ?_, ?_⟩, hasks, hbuilt.root_eq_none_iff, ?_⟩
  · rw [relevantPaths, hbuilt.table] at hpath
    exact exists_trigger_of_path hpath
  · rintro ⟨t, ⟨ht, hfits⟩, rfl⟩
    exact hbuilt.dirty_mem_relevantPaths ht hfits
  · constructor
    · rintro ⟨hall, -⟩ path hpath
      obtain ⟨n, hn, rfl⟩ := List.getElem_of_mem hpath
      exact (hasks n _ (List.getElem?_eq_getElem hn)).mp (hall n hn)
    · intro hbegun
      have hall : ∀ n, n < tree.relevantPaths.length → tree.Asks n := fun n hn =>
        (hasks n _ (List.getElem?_eq_getElem hn)).mpr (hbegun _ (List.getElem_mem hn))
      refine ⟨hall, fun hnone => List.eq_nil_iff_length_eq_zero.mpr ?_⟩
      refine Nat.eq_zero_of_not_pos fun hpos => ?_
      obtain ⟨root, _, _, _, hroot, -⟩ := hall 0 hpos
      exact absurd (hnone.symm.trans hroot) nofun

/-- A new name of a customer goes into the customer's orders. -/
theorem asks_iff_begun_customer :
    Sample.customerTree.relevantPaths = ["orders", "name"] ∧ Sample.customerTree.Asks 1 := by
  have hpaths : Sample.customerTree.relevantPaths = ["orders", "name"] := by decide +kernel
  have hbuilt : build Sample.partiesMapping true "Customer" = .ok Sample.customerTree :=
    Except.eq_ok_value _
  obtain ⟨tree, hbuild, -, hasks, -⟩ := asks_iff_begun (Except.eq_ok_value _)
    Sample.compile_parties "Customer"
  have heq : tree = Sample.customerTree := Except.ok.inj (hbuild.symm.trans hbuilt)
  rw [heq] at hasks
  have happlies : Sample.partiesMapping.Applies "Customer" (.along "Party" "name" []) :=
    ⟨by decide +kernel, by decide +kernel⟩
  have hpart : Sample.partiesMapping.hasPart "Customer" = true := by decide +kernel
  exact ⟨hpaths, (hasks 1 "name" (by rw [hpaths]; rfl)).mpr
    ⟨_, _, happlies, rfl, happlies, rfl, .inl ⟨rfl, hpart⟩⟩⟩

/-- A new name of a supplier goes into no document, yet the name is relevant. -/
theorem supplier_never_asks :
    Mapping.compile Sample.partiesSchema Sample.parties.mapping = .ok Sample.partiesMapping ∧
      "Supplier" ∈ Sample.partiesSchema.concretes ∧
      Sample.partiesSchema.isEntity "Supplier" = true ∧
      build Sample.partiesMapping true "Supplier" = .ok Sample.supplierTree ∧
      Sample.supplierTree.root = none ∧ Sample.supplierTree.relevantPaths = ["name"] ∧
      ¬ Sample.supplierTree.Asks 0 := by
  have hroot : Sample.supplierTree.root = none := by decide +kernel
  refine ⟨Sample.compile_parties, by decide +kernel, by decide +kernel, Except.eq_ok_value _, hroot,
    by decide +kernel, ?_⟩
  rintro ⟨root, _, _, _, hsome, -⟩
  exact absurd (hroot.symm.trans hsome) nofun

end ChangeTree

end IndexSync
