import Overlay.Proofs.Reduce.Arrangement
import Overlay.Proofs.Reduce.NormalForm
import Overlay.Proofs.Stack.Merging

/-!
# Reordered declarations

Where no custom operator shares its priority with another operator, it does not matter which of
the operators in a tree is declared first. Trees with the same identities and the same operands at
each reduce to the same entries, and only the order of the keys at the top may differ: each base
key is reduced alike, and merges with the whole tree meet trees that differ in the order of their
keys alone.
-/

namespace Overlay

/-- Custom operators that share their priorities with no other operator: neither with the central
ones, nor with a merge above the value, nor with one another. -/
structure OperatorTable.PrioritiesApart (table : OperatorTable) : Prop where
  not_central : ∀ name operator, table.find? name = some operator → operator.priority ≠ 0
  not_level : ∀ name operator, table.find? name = some operator → ∀ level : UInt32, 1 ≤ level →
    operator.priority ≠ OperatorTable.levelStep * level.toNat
  distinct : ∀ name operator name' operator', table.find? name = some operator →
    table.find? name' = some operator' → operator.priority = operator'.priority → name = name'

/-- Trees that declare the same identities, each with the same operands, in any order of the
identities. -/
structure SameDeclarations (table : OperatorTable) (t u : Tree) : Prop where
  identities_iff : ∀ i, i ∈ table.identities t ↔ i ∈ table.identities u
  operands_eq : ∀ i, table.operandsAt i t = table.operandsAt i u

/-- Trees with the same entries for distinct identities, up to order. -/
structure Reordered (table : OperatorTable) (t u : Tree) : Prop where
  perm : t.Perm u
  distinct : (table.identities t).Nodup

/-- A reduction that does not depend on the order of declarations, except in the order of keys. -/
def Reduction.IgnoresOrder (inner : Reduction) (table : OperatorTable) : Prop :=
  ∀ t u, SameDeclarations table t u → ∀ r, inner t = some r → ∃ s, inner u = some s ∧ r.Perm s

namespace SameDeclarations

variable {table : OperatorTable} {t u : Tree}

/-- Trees with the same contributions to each identity have the same declarations. -/
theorem of_membersAt_eq (h : ∀ i, table.membersAt i t = table.membersAt i u) :
    SameDeclarations table t u :=
  ⟨OperatorTable.mem_identities_iff_of_membersAt_eq h,
    fun i => congrArg (List.flatMap Contribution.operands) (h i)⟩

/-- Identities that are picked out are declared with the same operands, in some order each. -/
theorem perm_picked (h : SameDeclarations table t u) (p : Identity → Bool) :
    (((table.identities t).filter p).eraseDups.map fun i => (i.operator, table.operandsAt i t)).Perm
      (((table.identities u).filter p).eraseDups.map
        fun i => (i.operator, table.operandsAt i u)) := by
  simp only [h.operands_eq]
  refine (OperatorTable.perm_eraseDups fun i => ?_).map _
  rw [List.mem_filter, List.mem_filter, h.identities_iff]

/-- The operators at each base key are the same up to order. -/
theorem perm_contentsAt (h : SameDeclarations table t u) (base : String) :
    (contentsAt (table.declared t) base).Perm (contentsAt (table.declared u) base) := by
  rw [OperatorTable.contentsAt_declared, OperatorTable.contentsAt_declared]
  exact h.perm_picked _

/-- The merges with the whole tree are the same up to order. -/
theorem perm_rootContents (h : SameDeclarations table t u) :
    (rootContents (table.declared t)).Perm (rootContents (table.declared u)) := by
  rw [OperatorTable.rootContents_declared, OperatorTable.rootContents_declared]
  exact h.perm_picked _

/-- The base keys are the same up to order. -/
theorem perm_basesOf (h : SameDeclarations table t u) :
    (basesOf (table.declared t)).Perm (basesOf (table.declared u)) := by
  rw [OperatorTable.basesOf_declared, OperatorTable.basesOf_declared]
  refine OperatorTable.perm_eraseDups fun base => ?_
  simp only [List.mem_map, List.mem_filter, h.identities_iff]

end SameDeclarations

namespace OperatorTable

variable {table : OperatorTable} {inner : Reduction}

/-- An operator that is applied is central, a merge above the value, or in the table. -/
theorem applied_cases {o : Operator} {base : List Char} (hfits : o.FitsBefore table base)
    (happlied : o.isApplied = true) :
    o.isCentral = true ∨ (∃ level, 1 ≤ level ∧ o = .merge .above level) ∨
      ∃ name operator, table.find? name = some operator ∧ o = .custom name := by
  cases o with
  | assign => simp [Operator.isApplied, Operator.isAssign] at happlied
  | merge side level =>
    cases side with
    | below => simp [Operator.isApplied, Operator.isAssign, Operator.isMergeBelow] at happlied
    | above => exact Or.inr (Or.inl ⟨level, hfits.1, rfl⟩)
  | custom name =>
    obtain ⟨operator, hfind⟩ := Option.isSome_iff_exists.1 hfits
    exact Or.inr (Or.inr ⟨name, operator, hfind, rfl⟩)
  | _ => exact Or.inl rfl

/-- The central operators have priority zero. -/
theorem priority_of_isCentral {o : Operator} (h : o.isCentral = true) : table.priority o = 0 := by
  cases o with
  | assign | merge _ _ | custom _ => simp [Operator.isCentral] at h
  | _ => rfl

/-- A custom operator has the priority that the table gives it. -/
theorem priority_custom {name : String} {operator : CustomOperator}
    (h : table.find? name = some operator) :
    table.priority (.custom name) = operator.priority := by
  simp [priority, h]

/-- Where custom operators share no priority, all operators that are applied are told apart. -/
theorem PrioritiesApart.tellsApart (h : table.PrioritiesApart) {operators : List Operator}
    (base : List Char) (hfits : ∀ o ∈ operators, o.FitsBefore table base)
    (happlied : ∀ o ∈ operators, o.isApplied = true) : table.TellsApart operators := by
  intro o ho o' ho' hpriority
  have hlevel {level : UInt32} (hlevel : 1 ≤ level) :
      table.priority (.merge .above level) ≠ 0 := by
    have hpos : 1 ≤ level.toNat := UInt32.le_iff_toNat_le.1 hlevel
    simp only [priority, levelStep]
    omega
  rcases applied_cases (hfits o ho) (happlied o ho) with
    hcentral | ⟨level, hone, rfl⟩ | ⟨name, operator, hfind, rfl⟩ <;>
  rcases applied_cases (hfits o' ho') (happlied o' ho') with
    hcentral' | ⟨level', hone', rfl⟩ | ⟨name', operator', hfind', rfl⟩
  · exact Or.inr ⟨hcentral, hcentral'⟩
  · exact absurd ((priority_of_isCentral hcentral).symm.trans hpriority).symm (hlevel hone')
  · rw [priority_of_isCentral hcentral, priority_custom hfind'] at hpriority
    exact absurd hpriority.symm (h.not_central name' operator' hfind')
  · exact absurd (hpriority.trans (priority_of_isCentral hcentral')) (hlevel hone)
  · simp only [priority, levelStep] at hpriority
    have hsame : level.toNat = level'.toNat := by omega
    exact Or.inl (by rw [UInt32.toNat_inj.1 hsame])
  · rw [priority_custom hfind'] at hpriority
    exact absurd hpriority.symm (h.not_level name' operator' hfind' level hone)
  · rw [priority_of_isCentral hcentral', priority_custom hfind] at hpriority
    exact absurd hpriority (h.not_central name operator hfind)
  · rw [priority_custom hfind] at hpriority
    exact absurd hpriority (h.not_level name operator hfind level' hone')
  · rw [priority_custom hfind, priority_custom hfind'] at hpriority
    exact Or.inl (by rw [h.distinct name operator name' operator' hfind hfind' hpriority])

section Arranged

variable (table) (contents : Contents)

/-- The operators that are applied among others, in the order of application. -/
def appliedInOrder : Contents :=
  (table.inOrder (numbered (contents.filter fun c => c.1.isApplied))).map Application.content

/-- Arranging the operators that are applied loses and adds nothing. -/
theorem perm_appliedInOrder :
    (contents.filter fun c => c.1.isApplied).Perm (table.appliedInOrder contents) := by
  conv_lhs => rw [← map_content_numbered (List.filter _ _)]
  exact ((orderByPlace_perm _ _).map _).symm

variable {table contents}

/-- Operators that are told apart are arranged by priority and rank. -/
theorem pairwise_appliedInOrder
    (h : table.TellsApart ((contents.filter fun c => c.1.isApplied).map Prod.fst)) :
    (table.appliedInOrder contents).Pairwise fun c d => table.AppliesBefore c.1 d.1 :=
  pairwise_inOrder (by rwa [map_operator_numbered])

end Arranged

section Level

variable {t u : Tree} (hpriorities : table.PrioritiesApart)

include hpriorities

/-- The operators that are applied at a base key are told apart. -/
theorem tellsApart_contentsAt (t : Tree) (base : String) :
    table.TellsApart
      (((contentsAt (table.declared t) base).filter fun c => c.1.isApplied).map Prod.fst) := by
  refine hpriorities.tellsApart base.toList (fun o ho => ?_) fun o ho => ?_
  · obtain ⟨c, hc, rfl⟩ := List.mem_map.1 ho
    exact fitsBefore_of_mem_contentsAt table (List.mem_filter.1 hc).1
  · obtain ⟨c, hc, rfl⟩ := List.mem_map.1 ho
    exact (List.mem_filter.1 hc).2

/-- Each base key is reduced alike. -/
theorem reduceBase_reordered (h : SameDeclarations table t u) (base : String) :
    table.reduceBase inner base (numbered (contentsAt (table.declared t) base)) =
      table.reduceBase inner base (numbered (contentsAt (table.declared u) base)) := by
  have hperm := h.perm_contentsAt base
  have hbelow := (perm_outwardContents
    ((contentsAt (table.declared t) base).filter fun c => c.1.isMergeBelow)).symm
  have hothers := perm_appliedInOrder table (contentsAt (table.declared t) base)
  have hapart := tellsApart_contentsAt hpriorities t base
  have hapart' := hapart.mono fun o ho => (hothers.map Prod.fst).mem_iff.2 ho
  have hmerges := pairwise_outwardContents fun c (hc : c ∈ (contentsAt (table.declared t)
    base).filter fun c => c.1.isMergeBelow) =>
      Operator.isMerge_of_isMergeBelow (List.mem_filter.1 hc).2
  have hordered := pairwise_appliedInOrder hapart
  calc
    _ = table.reduceArranged inner base (table.operandsAt ⟨.assign, base⟩ t).getLast?
          (outwardContents ((contentsAt (table.declared t) base).filter fun c => c.1.isMergeBelow))
          (table.appliedInOrder (contentsAt (table.declared t) base)) :=
        reduceBase_declared inner hbelow hothers hmerges hapart' hordered
    _ = table.reduceArranged inner base (table.operandsAt ⟨.assign, base⟩ u).getLast?
          (outwardContents ((contentsAt (table.declared t) base).filter fun c => c.1.isMergeBelow))
          (table.appliedInOrder (contentsAt (table.declared t) base)) := by
        rw [h.operands_eq]
    _ = _ := (reduceBase_declared inner ((hperm.symm.filter _).trans hbelow)
        ((hperm.symm.filter _).trans hothers) hmerges hapart' hordered).symm

/-- The entries of a level are the same up to order. -/
theorem levelEntries_reordered (h : SameDeclarations table t u) {entries : Tree}
    (hentries : table.levelEntries inner t = some entries) :
    ∃ entries', table.levelEntries inner u = some entries' ∧ entries.Perm entries' := by
  rw [levelEntries_eq] at hentries ⊢
  obtain ⟨reduced, hreduced, rfl⟩ := Option.map_eq_some_iff.1 hentries
  simp only [reduceBase_reordered hpriorities h] at hreduced
  obtain ⟨reduced', hreduced', hperm⟩ := exists_mapM_perm h.perm_basesOf hreduced
  exact ⟨reduced'.flatten, by rw [hreduced']; rfl, hperm.flatten⟩

end Level

section Root

variable {t u : Tree}

/-- Merges with the whole tree are made in the order of their ranks. -/
theorem content_rootMerges_reordered (h : SameDeclarations table t u) :
    (outwards (numbered (rootContents (table.declared t)))).map Application.content =
      (outwards (numbered (rootContents (table.declared u)))).map Application.content :=
  outwardContents_eq_of_perm (fun _ => isMerge_of_mem_rootContents table)
    (nodup_rootContents table u) h.perm_rootContents

/-- Merges with the whole tree are made from their operators and operands alone. -/
theorem foldlM_mergeRootOperands_content (as : List Application) (r : Tree) :
    as.foldlM (table.mergeRootOperands inner) r =
      (as.map Application.content).foldlM
        (fun r c => table.mergeRootOperands inner r (.ofContent c)) r := by
  rw [List.foldlM_map]
  rfl

end Root

/-- A patch is merged alike with trees that differ in the order of their keys. -/
theorem sameDeclarations_merge {t u : Tree} (h : Reordered table t u) (side : Side) (patch : Tree) :
    SameDeclarations table (table.merge (side.layers t patch))
      (table.merge (side.layers u patch)) := by
  have hmembers (i : Identity) : table.membersAt i (side.layers t patch).flatten =
      table.membersAt i (side.layers u patch).flatten := by
    cases side <;> simp [Side.layers, membersAt_eq_of_perm h.perm h.distinct i]
  have hperm := perm_mergeEntries hmembers
  refine .of_membersAt_eq (membersAt_eq_of_perm hperm ?_)
  simp [merge]

section Run

variable (hinner : inner.IgnoresOrder table) (hnormal : inner.Normalizes table)

include hinner hnormal

/-- Merging a patch with the whole tree keeps trees in different orders together. -/
theorem mergeRootPatch_reordered {t u r : Tree} {side : Side} {patch : Value}
    (h : Reordered table t u) (hr : table.mergeRootPatch inner side t patch = some r) :
    ∃ s, table.mergeRootPatch inner side u patch = some s ∧ Reordered table r s := by
  cases patch with
  | tree patch =>
    obtain ⟨s, hs, hperm⟩ := hinner _ _ (sameDeclarations_merge h side patch) r hr
    obtain ⟨hdistinct, -, -⟩ := hnormal _ r hr
    exact ⟨s, hs, hperm, hdistinct⟩
  | _ =>
    obtain rfl := Option.some.inj hr
    exact ⟨u, rfl, h⟩

/-- Merging all operands with the whole tree keeps trees in different orders together. -/
theorem mergeRootOperands_reordered {t u r : Tree} {a : Application} (h : Reordered table t u)
    (hr : table.mergeRootOperands inner t a = some r) :
    ∃ s, table.mergeRootOperands inner u a = some s ∧ Reordered table r s := by
  unfold mergeRootOperands at hr ⊢
  split at hr
  · exact exists_foldlM_related (fun t u patch r => mergeRootPatch_reordered hinner hnormal) h hr
  · obtain rfl := Option.some.inj hr
    exact ⟨u, rfl, h⟩

/-- A level does not depend on the order of its declarations, if inner reductions do not. -/
theorem ignoresOrder_reduceLevel (hpriorities : table.PrioritiesApart) :
    Reduction.IgnoresOrder (table.reduceLevel inner) table := by
  intro t u h r hr
  rw [reduceLevel_eq_entries] at hr ⊢
  obtain ⟨entries, hentries, hr⟩ := Option.bind_eq_some_iff.1 hr
  obtain ⟨entries', hentries', hperm⟩ := levelEntries_reordered hpriorities h hentries
  have hreordered : Reordered table entries entries' :=
    ⟨hperm, (writtenFor_levelEntries hentries).distinct⟩
  rw [foldlM_mergeRootOperands_content, content_rootMerges_reordered h,
    ← foldlM_mergeRootOperands_content] at hr
  obtain ⟨s, hs, hrs⟩ := exists_foldlM_related
    (fun t u a r => mergeRootOperands_reordered hinner hnormal) hreordered hr
  refine ⟨s, ?_, hrs.perm⟩
  rw [hentries']
  exact hs

end Run

/-- Within every depth the order of declarations does not matter. -/
theorem ignoresOrder_reduceWithin (hpriorities : table.PrioritiesApart) (depth : Nat) :
    Reduction.IgnoresOrder (table.reduceWithin depth) table := by
  induction depth with
  | zero => exact fun t u _ r hr => absurd hr (by simp [reduceWithin])
  | succ depth ih =>
    exact ignoresOrder_reduceLevel ih (normalizes_reduceWithin table depth) hpriorities

/-- Trees have the same declarations exactly when they declare the same up to order. -/
theorem sameDeclarations_iff {t u : Tree} :
    SameDeclarations table t u ↔ (table.declared t).Perm (table.declared u) := by
  constructor
  · intro h
    simp only [declared, h.operands_eq]
    exact (perm_eraseDups h.identities_iff).map _
  · intro h
    have hmem (i : Identity) : i ∈ table.identities t ↔ i ∈ table.identities u := by
      rw [← List.mem_eraseDups, ← map_fst_declared, (h.map Prod.fst).mem_iff, map_fst_declared,
        List.mem_eraseDups]
    refine ⟨hmem, fun i => ?_⟩
    by_cases hi : i ∈ table.identities t
    · have hdeclared : (i, table.operandsAt i t) ∈ table.declared t :=
        List.mem_map.2 ⟨i, List.mem_eraseDups.2 hi, rfl⟩
      obtain ⟨j, -, hj⟩ := List.mem_map.1 (h.mem_iff.1 hdeclared)
      obtain ⟨rfl, hoperands⟩ := Prod.mk.inj hj
      exact hoperands.symm
    · rw [operandsAt_eq_nil hi, operandsAt_eq_nil (mt (hmem i).2 hi)]

instance (t u : Tree) : Decidable (SameDeclarations table t u) :=
  decidable_of_iff _ sameDeclarations_iff.symm

/-- Stacked layers have the declarations of the layers. -/
theorem sameDeclarations_stack {layers layers' : List Tree}
    (h : SameDeclarations table layers.flatten layers'.flatten) :
    SameDeclarations table (table.stack layers) (table.stack layers') where
  identities_iff i := by simp [h.identities_iff]
  operands_eq i := by simp [h.operands_eq]

/-- Different operators may be declared in any order, within and across layers: where no custom
operator shares its priority, layers with the same identities and the same operands at each reduce
to the same tree but for the order of its keys at the top. -/
theorem reduction_of_reordered_layers (table : OperatorTable) (hpriorities : table.PrioritiesApart)
    (layers layers' : List Tree) (h : SameDeclarations table layers.flatten layers'.flatten) :
    (∀ r, table.Reduces (table.stack layers) r →
        ∃ s, table.Reduces (table.stack layers') s ∧ r.Perm s) ∧
      ∀ r s, table.reduceLayers layers = some r → table.reduceLayers layers' = some s →
        r.Perm s := by
  have hreduces (r : Tree) (hr : table.Reduces (table.stack layers) r) :
      ∃ s, table.Reduces (table.stack layers') s ∧ r.Perm s := by
    obtain ⟨depth, hr⟩ := hr
    obtain ⟨s, hs, hperm⟩ := ignoresOrder_reduceWithin hpriorities depth _ _
      (sameDeclarations_stack h) r hr
    exact ⟨s, ⟨depth, hs⟩, hperm⟩
  refine ⟨hreduces, fun r s hr hs => ?_⟩
  obtain ⟨s', hs', hperm⟩ := hreduces r (reduces_of_reduce hr)
  rwa [hs'.unique (reduces_of_reduce hs)] at hperm

/-- Two custom operators, arithmetic and merges with the whole tree on both sides give one tree
whichever is declared first. -/
theorem reduction_of_reordered_custom_operators :
    let table : OperatorTable := ⟨[("wrap", ⟨500, fun value operands =>
        (some (.array (value.toList ++ operands)), [])⟩),
      ("last", ⟨1500, fun value operands => (operands.getLast?.or value, [])⟩)], by decide⟩
    let layers : List Tree := [[("+a", .number (.int 1)), ("a", .number (.int 2)),
        ("(wrap)b", .null), ("*a", .number (.int 3))],
      [("*>", .tree [("b", .number (.int 7)), ("+a", .number (.int 4))]),
        ("(last)b", .bool true), ("<*", .tree [("c", .tree [("d", .null)])])]]
    let layers' : List Tree := [[("<*", .tree [("c", .tree [("d", .null)])]), ("(last)b", .bool true)],
      [("*a", .number (.int 3)), ("*>", .tree [("b", .number (.int 7)), ("+a", .number (.int 4))])],
      [("(wrap)b", .null), ("a", .number (.int 2)), ("+a", .number (.int 1))]]
    let r : Tree := [("c", .tree [("d", .null)]), ("a", .number (.int 11)), ("b", .number (.int 7))]
    table.PrioritiesApart ∧ SameDeclarations table layers.flatten layers'.flatten ∧
      table.Reduces (table.stack layers) r ∧
      (∃ s, table.Reduces (table.stack layers') s ∧ r.Perm s) ∧
      ∃ s, table.reduceLayers layers' = some s ∧ r.Perm s := by
  intro table layers layers' r
  have hfind : ∀ name operator, table.find? name = some operator →
      name = "wrap" ∧ operator.priority = 500 ∨ name = "last" ∧ operator.priority = 1500 := by
    intro name operator h
    obtain ⟨before, after, heq, -⟩ := List.lookup_eq_some_iff.1 h
    have hmem : (name, operator) ∈ table.entries := by simp [heq]
    simp only [table, List.mem_cons, List.not_mem_nil, or_false, Prod.mk.injEq] at hmem
    rcases hmem with ⟨rfl, rfl⟩ | ⟨rfl, rfl⟩ <;> simp
  have hpriorities : table.PrioritiesApart := by
    refine ⟨fun name operator h => ?_, fun name operator h level _ => ?_,
      fun name operator name' operator' h h' heq => ?_⟩
    · rcases hfind name operator h with ⟨-, h⟩ | ⟨-, h⟩ <;> omega
    · simp only [levelStep]
      rcases hfind name operator h with ⟨-, h⟩ | ⟨-, h⟩ <;> omega
    · rcases hfind name operator h with ⟨rfl, h⟩ | ⟨rfl, h⟩ <;>
        rcases hfind name' operator' h' with ⟨rfl, h'⟩ | ⟨rfl, h'⟩ <;> first | rfl | omega
  have hsame : SameDeclarations table layers.flatten layers'.flatten := by decide +kernel
  have hreduce : table.reduceLayers layers = some r := by decide +kernel
  have hreduce' : (table.reduceLayers layers').isSome = true := by decide +kernel
  obtain ⟨s, hs⟩ := Option.isSome_iff_exists.1 hreduce'
  obtain ⟨hreduces, hequal⟩ := reduction_of_reordered_layers table hpriorities layers layers' hsame
  exact ⟨hpriorities, hsame, reduces_of_reduce hreduce, hreduces r (reduces_of_reduce hreduce),
    s, hs, hequal r s hreduce hs⟩

end OperatorTable

end Overlay
