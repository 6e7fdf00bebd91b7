import Mathlib.Data.List.Sort
import Mathlib.Order.Filter.AtTopBot.Basic
import Overlay.Proofs.Reduce.Locality
import Overlay.Proofs.Reduce.OperatorFree

/-!
# Patches without operators

A base key to which nothing but a plain value and merges contribute, all without operators, is reduced
to a deep merge, level by level from the value outwards: each patch below the value is laid under it,
and then each patch above the value is laid over it. What else is in the tree has no part in this.
-/

namespace Overlay

open Filter

/-- Lay a patch under or over a value; where there is no value, the patch becomes it. -/
def Side.deepMerge (side : Side) (value : Option Value) (patch : Value) : Value :=
  match value, side with
  | none, _ => patch
  | some value, below => patch.deepMerge value
  | some value, above => value.deepMerge patch

/-- The level at which an operator merges on a side of the value. -/
def Operator.levelOn? (side : Side) : Operator → Option UInt32
  | merge side' level => if side' = side then some level else none
  | _ => none

/-- An operator merges on a side at one level at most. -/
theorem Operator.levelOn?_eq_some_iff {side : Side} {o : Operator} {level : UInt32} :
    o.levelOn? side = some level ↔ o = .merge side level := by
  cases o with
  | merge side' level' => simp [levelOn?]
  | _ => simp [levelOn?]

namespace OperatorTable

variable (table : OperatorTable)

/-- The levels of the merges on a side of a base key, in ascending order. -/
def levelsAt (side : Side) (base : String) (t : Tree) : List UInt32 :=
  (((table.identities t).filter fun i => i.base == base).filterMap
    fun i => i.operator.levelOn? side).eraseDups.insertionSort (· ≤ ·)

/-- Lay the patches on one side of a base key under or over a value, level by level in ascending
order and in the order of the operands at each level. -/
def patched (side : Side) (base : String) (t : Tree) (value : Option Value) : Option Value :=
  (table.levelsAt side base t).foldl
    (fun value level => (table.operandsAt ⟨.merge side level, base⟩ t).foldl
      (fun value patch => some (side.deepMerge value patch)) value)
    value

/-- The merges on a side of a base key with their patches, in ascending order of their levels. -/
def mergesOn (side : Side) (base : String) (t : Tree) : Contents :=
  (table.levelsAt side base t).map fun level =>
    (.merge side level, table.operandsAt ⟨.merge side level, base⟩ t)

variable {table} {side : Side} {base : String} {t : Tree}

section Levels

/-- The levels are those of the identities. -/
theorem mem_levelsAt {level : UInt32} :
    level ∈ table.levelsAt side base t ↔ ⟨.merge side level, base⟩ ∈ table.identities t := by
  rw [levelsAt, (List.perm_insertionSort _ _).mem_iff, List.mem_eraseDups, List.mem_filterMap]
  constructor
  · rintro ⟨⟨operator, base'⟩, hi, hlevel⟩
    obtain ⟨hmem, hbase⟩ := List.mem_filter.1 hi
    obtain rfl := Operator.levelOn?_eq_some_iff.1 hlevel
    obtain rfl : base' = base := beq_iff_eq.1 hbase
    exact hmem
  · intro hi
    exact ⟨_, List.mem_filter.2 ⟨hi, beq_self_eq_true base⟩, Operator.levelOn?_eq_some_iff.2 rfl⟩

/-- No level is listed twice. -/
theorem nodup_levelsAt (table : OperatorTable) (side : Side) (base : String) (t : Tree) :
    (table.levelsAt side base t).Nodup :=
  (List.perm_insertionSort _ _).nodup_iff.2 (nodup_eraseDups _)

/-- Levels are listed in ascending order. -/
theorem pairwise_levelsAt (table : OperatorTable) (side : Side) (base : String) (t : Tree) :
    (table.levelsAt side base t).Pairwise (· ≤ ·) :=
  List.pairwise_insertionSort _ _

/-- The merges at a base key are those below the value and those above it. -/
theorem perm_mergesOn (hbase : base ≠ "") :
    ((contentsAt (table.declared t) base).filter fun c => c.1.isMerge).Perm
      (table.mergesOn .below base t ++ table.mergesOn .above base t) := by
  have hnodup (side : Side) : ((table.mergesOn side base t).map Prod.fst).Nodup := by
    rw [mergesOn, List.map_map]
    refine (nodup_levelsAt table side base t).map_on fun level _ level' _ heq => ?_
    exact (Operator.merge.inj heq).2
  have hmem (side : Side) {c : Operator × Operands} : c ∈ table.mergesOn side base t ↔
      ∃ level, ⟨.merge side level, base⟩ ∈ table.identities t ∧
        c = (.merge side level, table.operandsAt ⟨.merge side level, base⟩ t) := by
    rw [mergesOn, List.mem_map]
    simp only [mem_levelsAt, eq_comm]
  have hapart : ((table.mergesOn .below base t ++ table.mergesOn .above base t)).Nodup := by
    refine List.nodup_append.2 ⟨(hnodup .below).of_map, (hnodup .above).of_map, ?_⟩
    intro c hc d hd hcd
    obtain ⟨level, -, rfl⟩ := (hmem .below).1 hc
    obtain ⟨level', -, rfl⟩ := (hmem .above).1 hd
    simp at hcd
  have hdeclared : ((contentsAt (table.declared t) base).filter fun c => c.1.isMerge).Nodup :=
    (nodup_contentsAt table t base).of_map.filter _
  -- Neither side has repetitions, so it is enough that both have the same elements.
  refine (List.perm_ext_iff_of_nodup hdeclared hapart).2 fun c => ?_
  rw [List.mem_filter, mem_contentsAt_iff, List.mem_append, hmem, hmem]
  constructor
  · rintro ⟨⟨⟨operator, base⟩, hi, rfl, -, rfl⟩, hmerge⟩
    cases operator with
    | merge side level =>
      cases side with
      | below => exact Or.inl ⟨level, hi, rfl⟩
      | above => exact Or.inr ⟨level, hi, rfl⟩
    | _ => simp [Operator.isMerge] at hmerge
  · have hkeyed (operator : Operator) : Identity.isRootMerge ⟨operator, base⟩ = false := by
      simp [Identity.isRootMerge, hbase]
    rintro (⟨level, hi, rfl⟩ | ⟨level, hi, rfl⟩)
    · exact ⟨⟨_, hi, rfl, hkeyed _, rfl⟩, rfl⟩
    · exact ⟨⟨_, hi, rfl, hkeyed _, rfl⟩, rfl⟩

/-- The merges of both sides are listed from the value outwards. -/
theorem pairwise_mergesOn (table : OperatorTable) (base : String) (t : Tree) :
    (table.mergesOn .below base t ++ table.mergesOn .above base t).Pairwise
      fun c d => c.1.outwardRank ≤ d.1.outwardRank := by
  have hside (side : Side) : (table.mergesOn side base t).Pairwise
      fun c d => c.1.outwardRank ≤ d.1.outwardRank := by
    refine List.pairwise_map.2 ((pairwise_levelsAt table side base t).imp fun hle => ?_)
    have hle' := UInt32.le_iff_toNat_le.1 hle
    cases side <;> simp only [Operator.outwardRank] <;> omega
  refine List.pairwise_append.2 ⟨hside .below, hside .above, fun c hc d hd => ?_⟩
  obtain ⟨level, -, rfl⟩ := List.mem_map.1 hc
  obtain ⟨level', -, rfl⟩ := List.mem_map.1 hd
  have hlt : level.toNat < UInt32.size := level.toNat_lt
  simp only [Operator.outwardRank]
  omega

end Levels

section Merging

/-- A run is what it does in the end, if from some depth on each of its steps is. -/
theorem eventually_foldlM {σ α : Type} {P : σ → Prop} {step : Nat → σ → α → Option σ}
    {f : σ → α → σ} {as : List α} (hstep : ∀ a ∈ as, ∀ s, P s →
      P (f s a) ∧ ∀ᶠ depth in atTop, step depth s a = some (f s a)) {s : σ} (hs : P s) :
    P (as.foldl f s) ∧ ∀ᶠ depth in atTop, as.foldlM (step depth) s = some (as.foldl f s) := by
  induction as generalizing s with
  | nil => exact ⟨hs, Eventually.of_forall fun _ => rfl⟩
  | cons a rest ih =>
    obtain ⟨hkept, hfirst⟩ := hstep a List.mem_cons_self s hs
    obtain ⟨hlast, hrest⟩ := ih (fun b hb => hstep b (List.mem_cons_of_mem _ hb)) hkept
    refine ⟨hlast, ?_⟩
    filter_upwards [hfirst, hrest] with depth hfirst hrest
    rw [List.foldlM_cons, hfirst]
    exact hrest

/-- A value without operators, if there is one. -/
def FreeValue (table : OperatorTable) (value : Option Value) : Prop :=
  ∀ v ∈ value, v.isOperatorFree table = true

/-- A value and a patch without operators are merged into a value without operators. -/
theorem freeValue_deepMerge {value : Option Value} {patch : Value} (hvalue : table.FreeValue value)
    (hpatch : patch.isOperatorFree table = true) (side : Side) :
    table.FreeValue (some (side.deepMerge value patch)) := by
  intro v hv
  obtain rfl := Option.some.inj hv
  cases value with
  | none => exact hpatch
  | some value =>
    cases side with
    | below => exact isOperatorFree_deepMerge hpatch (hvalue value rfl)
    | above => exact isOperatorFree_deepMerge (hvalue value rfl) hpatch

/-- Merging a patch with a value is a deep merge. -/
theorem eventually_mergePatch {value : Option Value} {patch : Value}
    (hvalue : table.FreeValue value) (hpatch : patch.isOperatorFree table = true) (side : Side) :
    ∀ᶠ depth in atTop, table.mergePatch (table.reduceWithin depth) side value patch =
      some (side.deepMerge value patch) := by
  have hself : ∀ᶠ depth in atTop, patch.reduceWith (table.reduceWithin depth) = some patch := by
    filter_upwards [eventually_ge_atTop patch.weight] with depth hdepth
    exact reduceWith_of_operatorFree hpatch hdepth
  cases value with
  | none => cases side <;> exact hself
  | some value =>
    have hfree := hvalue value rfl
    cases value with
    | tree t =>
      cases patch with
      | tree p =>
        have ht := isOperatorFree_tree_iff.1 hfree
        have hp := isOperatorFree_tree_iff.1 hpatch
        filter_upwards [eventually_gt_atTop (Tree.weight t + Tree.weight p)] with depth hdepth
        have hlayers (l u : Tree) : [l, u].flatten = l ++ u := by simp
        cases side with
        | below =>
          change (table.reduceWithin depth (table.mergeEntries [p, t].flatten)).map Value.tree = _
          rw [hlayers, reduceWithin_mergeEntries hp ht (by omega)]
          rfl
        | above =>
          change (table.reduceWithin depth (table.mergeEntries [t, p].flatten)).map Value.tree = _
          rw [hlayers, reduceWithin_mergeEntries ht hp (by omega)]
          rfl
      | _ =>
        cases side with
        | below => exact Eventually.of_forall fun _ => rfl
        | above => exact hself
    | _ =>
      cases side with
      | below => cases patch <;> exact Eventually.of_forall fun _ => rfl
      | above => exact hself

/-- Merging the patches of all levels on a side with a value is a deep merge, level by level. -/
theorem eventually_foldlM_mergesOn {value : Option Value} (side : Side)
    (hpatches : ∀ level, ∀ patch ∈ table.operandsAt ⟨.merge side level, base⟩ t,
      patch.isOperatorFree table = true) (hvalue : table.FreeValue value) :
    table.FreeValue (table.patched side base t value) ∧ ∀ᶠ depth in atTop,
      (table.mergesOn side base t).foldlM (fun value c =>
        table.mergeOperands (table.reduceWithin depth) value (.ofContent c)) value =
          some (table.patched side base t value) := by
  have hlevel : ∀ level ∈ table.levelsAt side base t, ∀ value, table.FreeValue value →
      table.FreeValue ((table.operandsAt ⟨.merge side level, base⟩ t).foldl
        (fun value patch => some (side.deepMerge value patch)) value) ∧ ∀ᶠ depth in atTop,
          table.mergeOperands (table.reduceWithin depth) value
            (.ofContent (.merge side level, table.operandsAt ⟨.merge side level, base⟩ t)) =
              some ((table.operandsAt ⟨.merge side level, base⟩ t).foldl
                (fun value patch => some (side.deepMerge value patch)) value) := by
    intro level _ value hvalue
    refine eventually_foldlM (P := table.FreeValue) (fun patch hpatch value hvalue => ?_) hvalue
    have hfree := hpatches level patch hpatch
    refine ⟨freeValue_deepMerge hvalue hfree side, ?_⟩
    filter_upwards [eventually_mergePatch hvalue hfree side] with depth hmerge
    rw [hmerge]
    rfl
  simp only [mergesOn, List.foldlM_map]
  exact eventually_foldlM (P := table.FreeValue) hlevel hvalue

/-- From some depth on, a base key with merges alone is reduced to the deep merge of its patches. -/
theorem eventually_reduceBase {S : Option Value} (hbase : base ≠ "")
    (hkinds : ∀ i ∈ table.identities t, i.base = base →
      i.operator = .assign ∨ i.operator.isMerge = true)
    (hS : table.operandsAt ⟨.assign, base⟩ t = S.toList)
    (hfree : ∀ i ∈ table.identities t, i.base = base →
      ∀ v ∈ table.operandsAt i t, v.isOperatorFree table = true) :
    ∀ᶠ depth in atTop, table.reduceBase (table.reduceWithin depth) base
      (numbered (contentsAt (table.declared t) base)) =
        some ((table.patched .above base t (table.patched .below base t S)).toList.map
          fun v => ((Key.plain base).encode table, v)) := by
  have hkinds' : ∀ c ∈ contentsAt (table.declared t) base,
      c.1.isAssign = true ∨ c.1.isMerge = true := by
    intro c hc
    obtain ⟨i, hi, hbase, -, rfl⟩ := (mem_contentsAt_iff table).1 hc
    refine (hkinds i hi hbase).imp_left fun hassign => ?_
    rw [hassign]
    rfl
  have hoperands (operator : Operator) :
      ∀ v ∈ table.operandsAt ⟨operator, base⟩ t, v.isOperatorFree table = true := by
    intro v hv
    by_cases hi : (⟨operator, base⟩ : Identity) ∈ table.identities t
    · exact hfree _ hi rfl v hv
    · rw [operandsAt_eq_nil hi] at hv
      exact absurd hv List.not_mem_nil
  have hstart : table.FreeValue S := fun v hv => by
    refine hoperands .assign v ?_
    rw [hS]
    exact Option.mem_toList.2 hv
  have hlast : (table.operandsAt ⟨.assign, base⟩ t).getLast? = S := by
    rw [hS]
    cases S <;> rfl
  have hself : ∀ᶠ depth in atTop, reducePresent (table.reduceWithin depth) S = some S := by
    cases S with
    | none => exact Eventually.of_forall fun _ => rfl
    | some value =>
      filter_upwards [eventually_ge_atTop value.weight] with depth hdepth
      exact congrArg (Option.map some) (reduceWith_of_operatorFree (hstart value rfl) hdepth)
  obtain ⟨hmiddle, hbelow⟩ := eventually_foldlM_mergesOn .below (fun _ => hoperands _) hstart
  obtain ⟨-, habove⟩ := eventually_foldlM_mergesOn .above (fun _ => hoperands _) hmiddle
  filter_upwards [hself, hbelow, habove] with depth hself hbelow habove
  rw [reduceBase_of_merges hkinds' (perm_mergesOn hbase) (pairwise_mergesOn table base t), hlast,
    hself, Option.bind_some, List.foldlM_append, hbelow]
  change Option.map _ (List.foldlM _ _ (table.mergesOn .above base t)) = _
  rw [habove]
  rfl

end Merging

section Lookup

variable {inner : Reduction}

/-- What is looked up at the plain key of a base key is the value that the base key is reduced to,
if this leaves nothing beside the value. -/
theorem lookup_levelEntries {entries : Tree} {value : Option Value}
    (hentries : table.levelEntries inner t = some entries)
    (hbase : table.reduceBase inner base (numbered (contentsAt (table.declared t) base)) =
      some (value.toList.map fun v => ((Key.plain base).encode table, v))) :
    entries.lookup ((Key.plain base).encode table) = value := by
  have hread : (table.identityOf ((Key.plain base).encode table)).base = base := by
    rw [(reduced_plain table base .null).1]
  have hlone := Option.some.inj ((reduceBase_eq_atBase hentries base).symm.trans hbase)
  have hlookup := lookup_atBase table ((Key.plain base).encode table) entries
  rw [hread, hlone] at hlookup
  rw [← hlookup]
  cases value <;> simp

end Lookup

section Rest

/-- A level can be reduced if each of its base keys can, and has no merges with the whole tree. -/
theorem exists_reduceLevel (inner : Reduction) (hroot : rootContents (table.declared t) = [])
    (hbases : ∀ base ∈ basesOf (table.declared t), ∃ entries, table.reduceBase inner base
      (numbered (contentsAt (table.declared t) base)) = some entries) :
    ∃ r, table.reduceLevel inner t = some r := by
  obtain ⟨reduced, hreduced⟩ := exists_mapM hbases
  refine ⟨reduced.flatten, ?_⟩
  rw [reduceLevel_eq_entries, levelEntries_eq, hreduced, hroot]
  rfl

/-- Leaving out one base key leaves what is declared at all others. -/
theorem contentsAt_filter_base_ne {base base' : String} (h : base' ≠ base) (t : Tree) :
    contentsAt (table.declared (t.filter fun e => (table.identityOf e.1).base != base)) base' =
      contentsAt (table.declared t) base' := by
  rw [declared_filter table (fun i => i.base != base), contentsAt, contentsAt,
    List.filter_filter, List.filter_filter, List.filter_filter]
  congr 1
  apply List.filter_congr
  intro d _
  by_cases hbase : d.1.base = base'
  · simp [hbase, h]
  · simp [hbase]

/-- All base keys but one are those of the tree without that one. -/
theorem mem_basesOf_filter_base_ne {base base' : String} (h : base' ≠ base)
    (hmem : base' ∈ basesOf (table.declared t)) :
    base' ∈ basesOf (table.declared (t.filter fun e => (table.identityOf e.1).base != base)) := by
  obtain ⟨i, hi, hroot, rfl⟩ := (mem_basesOf_iff table).1 hmem
  obtain ⟨e, he, rfl⟩ := List.mem_map.1 hi
  have hkept : e ∈ t.filter fun e => (table.identityOf e.1).base != base :=
    List.mem_filter.2 ⟨he, bne_iff_ne.2 h⟩
  exact (mem_basesOf_iff table).2 ⟨_, List.mem_map_of_mem hkept, hroot, rfl⟩

end Rest

/-- Patches without operators are deep merges: where nothing but a plain value and merges contribute to
a base key, its value in the reduced tree is the plain value with each patch below laid under it and
then each patch above laid over it, by ascending levels and in the order of the operands. The base key
does not keep the tree from being reduced either. -/
theorem patches_are_deep_merges (table : OperatorTable) (t : Tree) (s : String) (S : Option Value)
    (hroot : ∀ i ∈ table.identities t, i.isRootMerge = false) (hs : s ≠ "")
    (hkinds : ∀ i ∈ table.identities t, i.base = s →
      i.operator = .assign ∨ i.operator.isMerge = true)
    (hS : table.operandsAt ⟨.assign, s⟩ t = S.toList)
    (hfree : ∀ i ∈ table.identities t, i.base = s →
      ∀ v ∈ table.operandsAt i t, v.isOperatorFree table = true) :
    (∀ r, table.Reduces t r → r.lookup ((Key.plain s).encode table) =
        table.patched .above s t (table.patched .below s t S)) ∧
      ((∃ r, table.Reduces (t.filter fun e => (table.identityOf e.1).base != s) r) →
        ∃ r, table.Reduces t r) := by
  have hrootContents := rootContents_eq_nil table hroot
  have hvalue := eventually_reduceBase hs hkinds hS hfree
  constructor
  -- A greater depth keeps the reduced tree, so there is one at which the base key is settled too.
  · rintro r ⟨depth, hr⟩
    obtain ⟨depth', hbase, hdepth⟩ := (hvalue.and (eventually_ge_atTop depth)).exists
    have hlevel : table.reduceLevel (table.reduceWithin depth') t = some r :=
      reduceWithin_mono (Nat.le_succ_of_le hdepth) hr
    rw [reduceLevel_eq_entries, hrootContents] at hlevel
    obtain ⟨entries, hentries, hlevel⟩ := Option.bind_eq_some_iff.1 hlevel
    obtain rfl := Option.some.inj hlevel
    exact lookup_levelEntries hentries hbase
  · rintro ⟨r, depth, hr⟩
    cases depth with
    | zero => simp [reduceWithin] at hr
    | succ depth =>
      obtain ⟨depth', hbase, hdepth⟩ := (hvalue.and (eventually_ge_atTop depth)).exists
      have hlevel := reduceWithin_mono (Nat.succ_le_succ hdepth) hr
      rw [reduceWithin, reduceLevel_eq_entries, levelEntries_eq] at hlevel
      obtain ⟨entries, hentries, -⟩ := Option.bind_eq_some_iff.1 hlevel
      obtain ⟨reduced, hreduced, -⟩ := Option.map_eq_some_iff.1 hentries
      obtain ⟨r, hr⟩ := exists_reduceLevel (table.reduceWithin depth') hrootContents
        fun base hmem => by
          by_cases hsame : base = s
          · exact ⟨_, hsame ▸ hbase⟩
          · obtain ⟨written, -, hwritten⟩ :=
              exists_mem_of_mapM hreduced (mem_basesOf_filter_base_ne hsame hmem)
            rw [contentsAt_filter_base_ne hsame] at hwritten
            exact ⟨written, hwritten⟩
      exact ⟨r, depth' + 1, hr⟩

/-- Patches on both sides and at several levels, with trees, arrays, other values and an escaped key,
beside a custom operator at another base key. -/
theorem patches_are_deep_merges_at_levels :
    let table : OperatorTable := ⟨[("keep", ⟨0, fun value operands => (value, operands)⟩)], by decide⟩
    let t : Tree := [("*>>s", .tree [("x", .tree [("p", .number (.int 3))]), ("new", .array [])]),
      ("(keep)o", .bool true),
      ("<*s", .tree [("x", .tree [("q", .null), ("p", .bool false)]), ("()*k", .array [.tree
        [("+n", .null)]])]),
      ("s", .tree [("x", .tree [("p", .number (.int 1))]), ("y", .string "low")]),
      ("#*>s", .array [.tree [("y", .tree [("z", .null)])], .tree [("y", .bool true)]])]
    let v : Value := .tree [("x", .tree [("q", .null), ("p", .number (.int 3))]),
      ("()*k", .array [.tree [("+n", .null)]]), ("y", .bool true), ("new", .array [])]
    ∃ r, table.Reduces t r ∧ r.lookup "s" = some v := by
  intro table t v
  obtain ⟨hvalue, hexists⟩ := patches_are_deep_merges table t "s"
    (some (.tree [("x", .tree [("p", .number (.int 1))]), ("y", .string "low")]))
    (by decide +kernel) (by decide +kernel) (by decide +kernel) (by decide +kernel)
    (by decide +kernel)
  obtain ⟨r, hr⟩ := hexists ⟨[("(keep)o", .bool true)], 1, by decide +kernel⟩
  have hencoded : (Key.plain "s").encode table = "s" := by decide +kernel
  have hpatched : table.patched .above "s" t (table.patched .below "s" t
      (some (.tree [("x", .tree [("p", .number (.int 1))]), ("y", .string "low")]))) = some v := by
    decide +kernel
  have hlookup := hvalue r hr
  rw [hencoded, hpatched] at hlookup
  exact ⟨r, hr, hlookup⟩

end OperatorTable

end Overlay
