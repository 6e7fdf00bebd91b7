import Overlay.Proofs.Reduce.Termination

/-!
# Keys that a patch does not mention

A tree at a key is reduced before it is merged with a patch, and the merged tree is reduced again, so
that the operators of both apply. At a base key that the patch does not mention this second
reduction is all that the patch brings about: what is declared there is what is left by the first.
-/

namespace Overlay

namespace OperatorTable

variable {table : OperatorTable} {inner : Reduction} {tree patch : Tree} {base : String}

section Merged

/-- One entry at most contributes to an identity, where identities are distinct. -/
theorem length_membersAt_le (h : (table.identities tree).Nodup) (i : Identity) :
    (table.membersAt i tree).length ≤ 1 := by
  have hcount : (table.membersAt i tree).length = (table.identities tree).count i := by
    rw [membersAt, ← List.countP_eq_length_filter, List.count, identities, List.countP_map,
      List.countP_map]
    rfl
  rw [hcount]
  exact List.nodup_iff_count_le_one.1 h i

/-- Merging keeps the operands of an identity to which one entry at most contributes. -/
theorem operandsAt_mergeEntries {i : Identity} (h : (table.membersAt i tree).length ≤ 1) :
    table.operandsAt i (table.mergeEntries tree) = table.operandsAt i tree := by
  by_cases hi : i ∈ table.identities tree
  · have htrees : ¬ 2 ≤ (Group.trees ⟨i, table.membersAt i tree⟩).length := by
      have hle := length_leadingTrees_le (table.membersAt i tree)
      change ¬ 2 ≤ (leadingTrees (table.membersAt i tree)).length
      omega
    rw [operandsAt, membersAt_mergeEntries hi, List.flatMap_singleton]
    exact operands_mergedEntry (wellFormed_membersAt hi) htrees
  · have hi' : i ∉ table.identities (table.mergeEntries tree) := by simpa using hi
    rw [operandsAt_eq_nil hi, operandsAt_eq_nil hi']

/-- The identities of a tree and a patch are those of both. -/
theorem mem_identities_merge {side : Side} {i : Identity} :
    i ∈ table.identities (table.merge (side.layers tree patch)) ↔
      i ∈ table.identities tree ∨ i ∈ table.identities patch := by
  cases side <;> simp [merge, Side.layers, or_comm]

/-- Merged with no patch at all, a tree has the same operands. -/
theorem sameOperands_merge_nil (side : Side) (hdistinct : (table.identities tree).Nodup) :
    SameOperands table tree (table.merge (side.layers tree [])) := by
  have hlayers : (side.layers tree []).flatten = tree := by cases side <;> simp [Side.layers]
  rw [merge, hlayers]
  exact ⟨by simp, fun i => (operandsAt_mergeEntries (length_membersAt_le hdistinct i)).symm⟩

/-- At a base key that the patch does not mention, a merged tree declares what the tree declares. -/
theorem contentsAt_merge (side : Side) (hdistinct : (table.identities tree).Nodup)
    (hbase : base ∉ table.bases patch) :
    contentsAt (table.declared (table.merge (side.layers tree patch))) base =
      contentsAt (table.declared tree) base := by
  have hother {i : Identity} (hi : i ∈ table.identities patch) : i.base ≠ base :=
    fun heq => hbase (heq ▸ base_mem_bases hi)
  have hnone : (table.identities patch).filter (fun i => i.base == base && !i.isRootMerge) = [] :=
    List.filter_eq_nil_iff.2 fun i hi => by simp [hother hi]
  have hidentities : ((table.identities (side.layers tree patch).flatten).filter
      fun i => i.base == base && !i.isRootMerge) =
        (table.identities tree).filter fun i => i.base == base && !i.isRootMerge := by
    cases side <;> simp [Side.layers, List.filter_append, hnone]
  have hmembers {i : Identity} (hi : i.base = base) :
      table.membersAt i (side.layers tree patch).flatten = table.membersAt i tree := by
    have hmissing : table.membersAt i patch = [] := membersAt_eq_nil fun hmem => hother hmem hi
    cases side <;> simp [Side.layers, hmissing]
  rw [contentsAt_declared, contentsAt_declared, merge, identities_mergeEntries, filter_eraseDups,
    hidentities, eraseDups_eraseDups]
  -- The patch has nothing at the base key, so each identity there has the one entry of the tree.
  refine List.map_congr_left fun i hi => ?_
  have hbase : i.base = base := by
    simpa using (Bool.and_eq_true_iff.1 (List.mem_filter.1 (List.mem_eraseDups.1 hi)).2).1
  have hone : (table.membersAt i (side.layers tree patch).flatten).length ≤ 1 := by
    rw [hmembers hbase]
    exact length_membersAt_le hdistinct i
  rw [operandsAt_mergeEntries hone, operandsAt, operandsAt, hmembers hbase]

/-- At a base key that the patch does not mention, a merged tree is reduced as the tree alone is. -/
theorem atBase_reduceLevel_merge {side : Side} {r s : Tree}
    (hdistinct : (table.identities tree).Nodup)
    (htree : ∀ i ∈ table.identities tree, i.isRootMerge = false)
    (hpatch : ∀ i ∈ table.identities patch, i.isRootMerge = false)
    (hr : table.reduceLevel inner tree = some r)
    (hs : table.reduceLevel inner (table.merge (side.layers tree patch)) = some s)
    (hbase : base ∉ table.bases patch) : table.atBase base s = table.atBase base r := by
  have hmerged : ∀ i ∈ table.identities (table.merge (side.layers tree patch)),
      i.isRootMerge = false :=
    fun i hi => (mem_identities_merge.1 hi).elim (htree i) (hpatch i)
  rw [reduceLevel_eq_levelEntries htree] at hr
  rw [reduceLevel_eq_levelEntries hmerged] at hs
  have hsame := reduceBase_eq_atBase hs base
  rw [contentsAt_merge side hdistinct hbase, reduceBase_eq_atBase hr base] at hsame
  exact (Option.some.inj hsame).symm

end Merged

section Keyed

variable {marker s : String} {side : Side} {level : UInt32}

/-- A tree at a key is one operand. -/
theorem operandsAt_singleton (key : String) (patch : Tree) (i : Identity) :
    table.operandsAt i [(key, .tree patch)] =
      if table.identityOf key = i then [.tree patch] else [] := by
  have hone : (Contribution.ofEntry table (key, .tree patch)).operands = [.tree patch] := by
    simp [Contribution.operands, Contribution.ofEntry, Operands.ofValue]
  rw [operandsAt_eq_flatMap]
  split
  · next hi => simp [hi, hone]
  · next hi => simp [hi]

variable (hmarker : (Key.parse table marker).isRootMerge = true)

include hmarker

/-- A patch is all that a marker with nothing behind it declares. -/
theorem rootContents_singleton :
    rootContents (table.declared [(marker, .tree patch)]) =
      [((Key.parse table marker).operator, [.tree patch])] := by
  have hroot : (table.identityOf marker).isRootMerge = true := hmarker
  rw [rootContents_declared, identities, List.map_singleton, List.filter_cons_of_pos hroot,
    List.filter_nil, eraseDups_of_nodup (List.nodup_singleton _), List.map_singleton,
    operandsAt_singleton, if_pos rfl]
  rfl

variable (hplain : (Key.parse table s).isPlain = true)
  (hcanonical : (Key.parse table s).encode table = s) (hne : s ≠ "") (hhead : s.toList.head? ≠ some '>')

include hplain hcanonical hne hhead

/-- At a key without an escape, the marker in front of the key has the tree at the key reduced and
merged with the patch. -/
theorem reduceLevel_patched (hoperator : (Key.parse table marker).operator = .merge side level)
    (hbare : (Key.parse table s).base = s) :
    table.reduceLevel inner [(s, .tree tree), (marker ++ s, .tree patch)] =
      (inner tree).bind fun r =>
        (inner (table.merge (side.layers r patch))).map fun v => [(s, .tree v)] := by
  have hroot : (table.identityOf marker).isRootMerge = true := hmarker
  have hmerges : table.rootMergesAt (Key.parse table s).base [(marker, .tree patch)] =
      [(marker ++ s, .tree patch)] := by
    rw [rootMergesAt, hbare]
    simp [hroot]
  have hmoved : Moved table s (Key.parse table s).base [(marker, .tree patch)] []
      [(marker ++ s, .tree patch)] :=
    moved_of_canonical hplain hcanonical hne hhead hmerges.symm
  have htrees : ∀ level, ∀ v ∈ table.operandsAt ⟨.merge .above level, ""⟩ [(marker, .tree patch)],
      v.tree?.isSome = true := by
    intro level v hv
    rw [operandsAt_singleton] at hv
    split at hv
    · rw [List.mem_singleton.1 hv]
      rfl
    · exact absurd hv List.not_mem_nil
  have houtwards : (outwards (numbered (rootContents
      (table.declared [(marker, .tree patch)])))).map Application.content =
        [(.merge side level, [.tree patch])] := by
    rw [rootContents_singleton hmarker, hoperator]
    exact List.perm_singleton.1 (perm_outwardContents _)
  refine (reduceLevel_moved hmoved (Key.encode_plain_base hplain hcanonical) htrees tree).trans ?_
  refine Option.bind_congr fun r _ => ?_
  rw [foldlM_mergeRootOperands_content, houtwards]
  simp [mergeRootOperands, mergeRootPatch, mergeTrees, Application.ofContent]

/-- Behind an escaped key the patch is for another base key, so the tree at the key is just reduced. -/
theorem atBase_escaped (hescaped : (Key.parse table s).base ≠ s) {u : Tree}
    (h : table.reduceLevel inner [(s, .tree tree), (marker ++ s, .tree patch)] = some u) :
    ∃ r, inner tree = some r ∧ table.atBase (Key.parse table s).base u = [(s, .tree r)] := by
  have hwritten := Key.encode_plain_base hplain hcanonical
  have hs : table.identityOf s = ⟨.assign, (Key.parse table s).base⟩ := by
    have hread := (reduced_plain table (Key.parse table s).base .null).1
    rwa [hwritten] at hread
  have hbehind : table.identityOf (marker ++ s) = ⟨(table.identityOf marker).operator, s⟩ :=
    identityOf_append hmarker hhead
  have hroot : ∀ i ∈ table.identities [(s, .tree tree), (marker ++ s, .tree patch)],
      i.isRootMerge = false := by
    simp [hs, hbehind, Identity.isRootMerge, Operator.isMerge, hne]
  have hpicked : table.atBase (Key.parse table s).base
      [(s, .tree tree), (marker ++ s, .tree patch)] = [(s, .tree tree)] := by
    simp [atBase, baseOf, hs, hbehind, hescaped.symm]
  have halone : table.reduceLevel inner
      [((Key.plain (Key.parse table s).base).encode table, .tree tree)] = _ :=
    reduceLevel_plain inner _ (.tree tree)
  rw [hwritten, ← hpicked, reduceLevel_atBase_of_reduceLevel hroot h] at halone
  obtain ⟨w, hw, hu⟩ := Option.map_eq_some_iff.1 halone.symm
  obtain ⟨r, hr, rfl⟩ := Option.map_eq_some_iff.1 hw
  exact ⟨r, hr, hu.symm⟩

end Keyed

/-- A tree in normal form has no merges with the whole tree. -/
theorem isRootMerge_of_normal (h : Tree.Normal table tree) :
    ∀ i ∈ table.identities tree, i.isRootMerge = false := by
  intro i hi
  obtain ⟨e, he, rfl⟩ := List.mem_map.1 hi
  obtain ⟨-, hentries, -⟩ := h
  have hmerge : (table.identityOf e.1).operator.isMerge = false := (hentries e he).not_merge
  rw [Identity.isRootMerge, hmerge, Bool.false_and]

/-- A patch at a key changes only what it mentions: without custom operators, at all other base keys
the value of the key has what a second reduction of the reduced tree has there. Behind an escaped key
the patch is for another base key, and the value is the reduced tree. -/
theorem patches_leave_other_keys (S P : Tree) (marker s : String)
    (hpatch : ∀ i ∈ empty.identities P, i.isRootMerge = false)
    (hmarker : (Key.parse empty marker).isRootMerge = true)
    (hplain : (Key.parse empty s).isPlain = true)
    (hcanonical : (Key.parse empty s).encode empty = s) (hne : s ≠ "")
    (hhead : s.toList.head? ≠ some '>') :
    ∃ u r s', empty.reduce [(s, .tree S), (marker ++ s, .tree P)] = some u ∧
      u.lookup s = some (.tree s') ∧ empty.reduce S = some r ∧
      ((Key.parse empty s).base = s → ∃ r', empty.reduce r = some r' ∧
        (∀ b, b ∉ empty.bases P → empty.atBase b s' = empty.atBase b r') ∧ (P = [] → s' = r')) ∧
      ((Key.parse empty s).base ≠ s → s' = r) := by
  obtain ⟨u, hu, -⟩ := exists_reduce [(s, .tree S), (marker ++ s, .tree P)]
  obtain ⟨r, hr, -⟩ := exists_reduce S
  obtain ⟨r', hr', -⟩ := exists_reduce r
  have hlevel := hu
  rw [← reduceLevel_reduce] at hlevel
  -- Behind a marker an escape is part of the base key, so only a bare key gets the patch.
  by_cases hbare : (Key.parse empty s).base = s
  · have hnormal : Tree.Normal empty r := normalizes_reduceWithin empty _ S r hr
    obtain ⟨hdistinct, -, -⟩ := id hnormal
    obtain ⟨side, level, hoperator⟩ : ∃ side level,
        (Key.parse empty marker).operator = .merge side level := by
      have hmerge : (Key.parse empty marker).operator.isMerge = true := (Bool.and_eq_true_iff.1 hmarker).1
      cases hoperator : (Key.parse empty marker).operator with
      | merge side level => exact ⟨side, level, rfl⟩
      | _ => simp [hoperator, Operator.isMerge] at hmerge
    rw [reduceLevel_patched hmarker hplain hcanonical hne hhead hoperator hbare, hr,
      Option.bind_some] at hlevel
    obtain ⟨v, hv, rfl⟩ := Option.map_eq_some_iff.1 hlevel
    refine ⟨_, r, v, hu, List.lookup_cons_self, hr, fun _ => ⟨r', hr', fun b hb => ?_, ?_⟩,
      fun hescaped => absurd hbare hescaped⟩
    · exact atBase_reduceLevel_merge hdistinct (isRootMerge_of_normal hnormal) hpatch
        ((reduceLevel_reduce r).trans hr') ((reduceLevel_reduce _).trans hv) hb
    · rintro rfl
      exact (reduce_congr (sameOperands_merge_nil side hdistinct) hr' hv).symm
  · obtain ⟨v, hv, hat⟩ := atBase_escaped hmarker hplain hcanonical hne hhead hbare hlevel
    have hlookup : u.lookup s = some (.tree v) := by
      rw [← lookup_atBase]
      exact (congrArg (List.lookup s) hat).trans List.lookup_cons_self
    refine ⟨u, r, v, hu, hlookup, hr, fun h => absurd h hbare, fun _ => ?_⟩
    exact Option.some.inj (hv.symm.trans hr)

/-- A patch below a tree that is reduced to a value with an operand beside it, which is applied when the
merged tree is reduced, and the same tree and patch at an escaped key. -/
theorem patches_leave_other_keys_with_residue :
    let S : Tree := [("+a", .number (.int 1)), ("*>a", .number (.int 5)), ("b", .null)]
    let P : Tree := [("b", .bool true), ("#+c", .array [.number (.int 2)])]
    (∃ u s', empty.reduce [("s", .tree S), ("<<*s", .tree P)] = some u ∧
      u.lookup "s" = some (.tree s') ∧ empty.atBase "a" s' = [("a", .number (.int 6))]) ∧
    ∃ u, empty.reduce [("()*y", .tree S), ("<<*()*y", .tree P)] = some u ∧
      u.lookup "()*y" =
        some (.tree [("a", .number (.int 5)), ("+a", .number (.int 1)), ("b", .null)]) := by
  intro S P
  have hr : empty.reduce S =
      some [("a", .number (.int 5)), ("+a", .number (.int 1)), ("b", .null)] :=
    reduces_iff_reduce.1 ⟨3, by decide +kernel⟩
  have hr' : empty.reduce [("a", .number (.int 5)), ("+a", .number (.int 1)), ("b", .null)] =
      some [("a", .number (.int 6)), ("b", .null)] :=
    reduces_iff_reduce.1 ⟨3, by decide +kernel⟩
  have hpatch : ∀ i ∈ empty.identities P, i.isRootMerge = false := by decide +kernel
  have hmarker : (Key.parse empty "<<*").isRootMerge = true := by decide +kernel
  constructor
  · obtain ⟨u, r, s', hu, hs', hreduced, hbare, -⟩ := patches_leave_other_keys S P "<<*" "s" hpatch
      hmarker (by decide +kernel) (by decide +kernel) (by decide +kernel) (by decide +kernel)
    obtain rfl := Option.some.inj (hreduced.symm.trans hr)
    obtain ⟨r', hagain, hother, -⟩ := hbare (by decide +kernel)
    obtain rfl := Option.some.inj (hagain.symm.trans hr')
    exact ⟨u, s', hu, hs', (hother "a" (by decide +kernel)).trans (by decide +kernel)⟩
  · obtain ⟨u, r, s', hu, hs', hreduced, -, hescaped⟩ := patches_leave_other_keys S P "<<*" "()*y"
      hpatch hmarker (by decide +kernel) (by decide +kernel) (by decide +kernel) (by decide +kernel)
    obtain rfl := Option.some.inj (hreduced.symm.trans hr)
    exact ⟨u, hu, hescaped (by decide +kernel) ▸ hs'⟩

/-- Even an empty patch has the reduced tree reduced once more, so an operand that was left beside a
value is applied to it. -/
theorem patches_settle_other_keys :
    ¬ ∀ (S P : Tree) (marker s : String), (∀ i ∈ empty.identities P, i.isRootMerge = false) →
      (Key.parse empty marker).isRootMerge = true → (Key.parse empty s).isPlain = true →
      (Key.parse empty s).encode empty = s → s ≠ "" → s.toList.head? ≠ some '>' →
      ∀ u r s', empty.reduce [(s, .tree S), (marker ++ s, .tree P)] = some u →
        u.lookup s = some (.tree s') → empty.reduce S = some r →
        ∀ b, b ∉ empty.bases P → empty.atBase b s' = empty.atBase b r := by
  intro hclaim
  let S : Tree := [("+a", .number (.int 1)), ("*>a", .number (.int 5))]
  have hu : empty.reduce [("s", .tree S), ("*>" ++ "s", .tree [])] =
      some [("s", .tree [("a", .number (.int 6))])] :=
    reduces_iff_reduce.1 ⟨3, by decide +kernel⟩
  have hr : empty.reduce S = some [("a", .number (.int 5)), ("+a", .number (.int 1))] :=
    reduces_iff_reduce.1 ⟨3, by decide +kernel⟩
  have hkept := hclaim S [] "*>" "s" (by decide +kernel) (by decide +kernel) (by decide +kernel)
    (by decide +kernel) (by decide +kernel) (by decide +kernel) _ _ _ hu List.lookup_cons_self hr
    "a" (by decide +kernel)
  exact absurd hkept (by decide +kernel)

end OperatorTable

end Overlay
