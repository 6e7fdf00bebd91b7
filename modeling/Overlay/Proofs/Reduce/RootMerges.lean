import Overlay.Proofs.Key.Suffix
import Overlay.Proofs.Reduce.Merges
import Overlay.Proofs.Reduce.NormalForm

/-!
# Merges with the whole tree

A merge with the whole tree does what the same merge does at a key that holds the rest of the
tree: the rest is reduced on its own, every base key of it with all its merges, and is then merged
from the value outwards. Only where the value is laid under a patch that is no tree do the two
differ, since a key can hold another value and the whole tree can not.
-/

namespace Overlay

namespace OperatorTable

variable (table : OperatorTable)

/-- The merges with the whole tree, written as merges at a base key. -/
def rootMergesAt (base : String) (t : Tree) : Tree :=
  (t.filter fun e => (table.identityOf e.1).isRootMerge).map fun e => (e.1 ++ base, e.2)

/-- A tree without its merges with the whole tree. -/
def withoutRootMerges (t : Tree) : Tree :=
  t.filter fun e => !(table.identityOf e.1).isRootMerge

variable {table} {t : Tree} {base : String}

section Rest

/-- What is left of a tree has no merges with the whole tree. -/
theorem rootContents_withoutRootMerges (t : Tree) :
    rootContents (table.declared (table.withoutRootMerges t)) = [] := by
  rw [withoutRootMerges, declared_filter table (fun i => !i.isRootMerge), rootContents,
    List.filter_filter]
  simp [contentsOf]

/-- What is left of a tree has the same base keys, with the same operators at each. -/
theorem levelEntries_withoutRootMerges (inner : Reduction) (t : Tree) :
    table.levelEntries inner (table.withoutRootMerges t) = table.levelEntries inner t := by
  rw [levelEntries_eq, levelEntries_eq, withoutRootMerges,
    declared_filter table (fun i => !i.isRootMerge)]
  simp only [basesOf, contentsAt, List.filter_filter, Bool.and_self]

/-- A level is reduced to what is left of the tree, reduced on its own, and merged with the whole
tree from there on. -/
theorem reduceLevel_eq_rest (table : OperatorTable) (inner : Reduction) (t : Tree) :
    table.reduceLevel inner t = (table.reduceLevel inner (table.withoutRootMerges t)).bind
      ((outwards (numbered (rootContents (table.declared t)))).foldlM
        (table.mergeRootOperands inner)) := by
  rw [reduceLevel_eq_entries, reduceLevel_eq_entries, rootContents_withoutRootMerges,
    levelEntries_withoutRootMerges]
  cases table.levelEntries inner t <;> rfl

end Rest

section Moved

/-- What is left of a tree at a plain key, and its merges with the whole tree as merges at the same
base key, the plain key standing anywhere among them. -/
structure Moved (table : OperatorTable) (x base : String) (t before after : Tree) : Prop where
  identityOf_eq : table.identityOf x = ⟨.assign, base⟩
  base_ne : base ≠ ""
  head?_ne : base.toList.head? ≠ some '>'
  merges_eq : before ++ after = table.rootMergesAt base t

/-- A merge with the whole tree is moved to the base key that is written behind it. -/
theorem identityOf_append {raw : String} (h : (table.identityOf raw).isRootMerge = true)
    (hbase : base.toList.head? ≠ some '>') :
    table.identityOf (raw ++ base) = ⟨(table.identityOf raw).operator, base⟩ := by
  rw [identityOf, Key.parse_append h hbase]
  rfl

/-- The identities of moved merges are those of the merges with the whole tree, moved. -/
theorem identities_rootMergesAt (hbase : base.toList.head? ≠ some '>') (t : Tree) :
    table.identities (table.rootMergesAt base t) =
      ((table.identities t).filter Identity.isRootMerge).map fun i => ⟨i.operator, base⟩ := by
  rw [rootMergesAt, identities, identities, List.map_map, List.filter_map, List.map_map]
  apply List.map_congr_left
  intro e he
  exact identityOf_append (List.mem_filter.1 he).2 hbase

/-- Merges with the whole tree keep their operands when they are moved. -/
theorem operandsAt_rootMergesAt (hbase : base.toList.head? ≠ some '>') {i : Identity}
    (hi : i.isRootMerge = true) (t : Tree) :
    table.operandsAt ⟨i.operator, base⟩ (table.rootMergesAt base t) = table.operandsAt i t := by
  have hpicked : (t.filter fun e => (table.identityOf e.1).isRootMerge).filter
      (fun e => table.identityOf (e.1 ++ base) == ⟨i.operator, base⟩) =
        (t.filter fun e => (table.identityOf e.1).isRootMerge).filter
          fun e => table.identityOf e.1 == i := by
    apply List.filter_congr
    intro e he
    have hroot := (List.mem_filter.1 he).2
    rw [identityOf_append hroot hbase, Bool.eq_iff_iff, beq_iff_eq, beq_iff_eq]
    exact ⟨fun h => Identity.eq_of_isRootMerge hroot hi (Identity.mk.inj h).1, fun h => by rw [h]⟩
  rw [← operandsAt_filter hi t, operandsAt_eq_flatMap, operandsAt_eq_flatMap, rootMergesAt,
    List.filter_map, List.flatMap_map]
  refine (congrArg (List.flatMap _) hpicked).trans (List.flatMap_congr fun e he => ?_)
  have hroot : (Key.parse table e.1).isRootMerge = true :=
    (List.mem_filter.1 (List.mem_filter.1 he).1).2
  simp only [Contribution.operands, Contribution.ofEntry, Key.parse_append hroot hbase]

namespace Moved

variable {x : String} {before after : Tree} (h : Moved table x base t before after)

include h

/-- The identities beside the plain key are merges at the base key. -/
theorem exists_of_mem {i : Identity} (hi : i ∈ table.identities (before ++ after)) :
    ∃ j ∈ table.identities t, j.isRootMerge = true ∧ i = ⟨j.operator, base⟩ := by
  rw [h.merges_eq, identities_rootMergesAt h.head?_ne] at hi
  obtain ⟨j, hj, rfl⟩ := List.mem_map.1 hi
  obtain ⟨hj, hroot⟩ := List.mem_filter.1 hj
  exact ⟨j, hj, hroot, rfl⟩

/-- All identities are the plain one and merges, at the base key. -/
theorem kinds {v : Value} {i : Identity}
    (hi : i ∈ table.identities (before ++ (x, v) :: after)) :
    i.base = base ∧ (i.operator = .assign ∨ i.operator.isMerge = true) := by
  have hsplit : table.identities (before ++ (x, v) :: after) =
      table.identities before ++ table.identityOf x :: table.identities after :=
    identities_append before _
  rw [hsplit, List.mem_append, List.mem_cons, or_left_comm, ← List.mem_append, ← identities_append,
    h.identityOf_eq] at hi
  rcases hi with rfl | hi
  · exact ⟨rfl, Or.inl rfl⟩
  · obtain ⟨j, -, hroot, rfl⟩ := h.exists_of_mem hi
    exact ⟨rfl, Or.inr (Bool.and_eq_true_iff.1 hroot).1⟩

/-- No merge with the whole tree is left. -/
theorem not_isRootMerge {v : Value} {i : Identity}
    (hi : i ∈ table.identities (before ++ (x, v) :: after)) : i.isRootMerge = false := by
  rw [Bool.eq_false_iff]
  intro hroot
  have hempty := List.isEmpty_iff.1 (Bool.and_eq_true_iff.1 hroot).2
  rw [(h.kinds hi).1] at hempty
  exact h.base_ne (String.toList_inj.1 hempty)

/-- There is one base key. -/
theorem basesOf_eq (v : Value) :
    basesOf (table.declared (before ++ (x, v) :: after)) = [base] := by
  refine List.perm_singleton.1 ((List.perm_ext_iff_of_nodup (nodup_basesOf table _)
    (List.nodup_singleton base)).2 fun b => ?_)
  rw [mem_basesOf_iff, List.mem_singleton]
  constructor
  · rintro ⟨i, hi, -, rfl⟩
    exact (h.kinds hi).1
  · rintro rfl
    have hx : table.identityOf x ∈ table.identities (before ++ (x, v) :: after) :=
      List.mem_map.2 ⟨(x, v), by simp, rfl⟩
    exact ⟨_, hx, h.not_isRootMerge hx, (h.kinds hx).1⟩

/-- There is no merge with the whole tree among what is declared. -/
theorem rootContents_eq (v : Value) :
    rootContents (table.declared (before ++ (x, v) :: after)) = [] := by
  exact rootContents_eq_nil table fun _ => h.not_isRootMerge

/-- What the plain key holds is the operand of the plain identity. -/
theorem operandsAt_assign (u : Tree) :
    table.operandsAt ⟨.assign, base⟩ (before ++ (x, .tree u) :: after) = [.tree u] := by
  have hnone : (⟨.assign, base⟩ : Identity) ∉ table.identities (before ++ after) := by
    intro hi
    obtain ⟨j, -, hroot, hj⟩ := h.exists_of_mem hi
    have hmerge := (Bool.and_eq_true_iff.1 hroot).1
    rw [← (Identity.mk.inj hj).1] at hmerge
    simp [Operator.isMerge] at hmerge
  have hbeside : table.operandsAt ⟨.assign, base⟩ before = [] ∧
      table.operandsAt ⟨.assign, base⟩ after = [] := by
    simpa using operandsAt_eq_nil hnone
  have hone : table.operandsAt ⟨.assign, base⟩ [(x, .tree u)] = [.tree u] := by
    rw [operandsAt_eq_flatMap]
    simp [h.identityOf_eq, Contribution.operands, Contribution.ofEntry, Operands.ofValue]
  rw [← List.singleton_append, operandsAt_append, operandsAt_append, hbeside.1, hbeside.2, hone]
  rfl

/-- The plain key adds nothing to the operands of a merge. -/
theorem operandsAt_merge {i : Identity} (hi : i.isRootMerge = true) (v : Value) :
    table.operandsAt ⟨i.operator, base⟩ (before ++ (x, v) :: after) = table.operandsAt i t := by
  have hone : table.operandsAt ⟨i.operator, base⟩ [(x, v)] = [] := by
    apply operandsAt_eq_nil
    have hmerge := (Bool.and_eq_true_iff.1 hi).1
    simp only [identities, List.map_cons, List.map_nil, List.mem_singleton, h.identityOf_eq]
    intro heq
    rw [(Identity.mk.inj heq).1] at hmerge
    simp [Operator.isMerge] at hmerge
  rw [← List.singleton_append, operandsAt_append, operandsAt_append, hone, List.nil_append,
    ← operandsAt_append, h.merges_eq, operandsAt_rootMergesAt h.head?_ne hi]

/-- The merges at the base key are the merges with the whole tree. -/
theorem filter_contentsAt (v : Value) :
    (contentsAt (table.declared (before ++ (x, v) :: after)) base).filter (fun c => c.1.isMerge) =
      rootContents (table.declared t) := by
  have hbeside : ∀ i ∈ table.identities (before ++ after), i.operator.isMerge = true := by
    intro i hi
    obtain ⟨j, -, hroot, rfl⟩ := h.exists_of_mem hi
    exact (Bool.and_eq_true_iff.1 hroot).1
  have hall : ∀ i ∈ table.identities (before ++ (x, v) :: after),
      (i.base == base && !i.isRootMerge) = true := by
    intro i hi
    simp [(h.kinds hi).1, h.not_isRootMerge hi]
  have hpicked : (table.identities (before ++ (x, v) :: after)).filter
      (fun i => i.operator.isMerge) = table.identities (before ++ after) := by
    have hsplit : table.identities (before ++ (x, v) :: after) =
        table.identities before ++ table.identityOf x :: table.identities after :=
      identities_append before _
    rw [hsplit, List.filter_append, List.filter_cons_of_neg (by simp [h.identityOf_eq,
      Operator.isMerge]), ← List.filter_append, ← identities_append, List.filter_eq_self.2 hbeside]
  have hapart : ∀ i ∈ (table.identities t).filter Identity.isRootMerge,
      ∀ j ∈ (table.identities t).filter Identity.isRootMerge,
        Identity.mk i.operator base = ⟨j.operator, base⟩ → i = j := fun i hi j hj hij =>
    Identity.eq_of_isRootMerge (List.mem_filter.1 hi).2 (List.mem_filter.1 hj).2
      (Identity.mk.inj hij).1
  rw [contentsAt_declared, List.filter_eq_self.2 hall, List.filter_map]
  change ((table.identities _).eraseDups.filter fun i => i.operator.isMerge).map _ = _
  rw [filter_eraseDups, hpicked, h.merges_eq, identities_rootMergesAt h.head?_ne,
    eraseDups_map_of_injOn hapart, rootContents_declared, List.map_map]
  apply List.map_congr_left
  intro i hi
  rw [Function.comp_apply,
    h.operandsAt_merge (List.mem_filter.1 (List.mem_eraseDups.1 hi)).2]

end Moved

end Moved

section Merging

variable {inner : Reduction}

/-- Merging patches with a tree at a key is merging them with the tree, as long as no other value
is laid over it. -/
theorem mergeOperands_tree {a : Application}
    (ha : ∀ level, a.operator = .merge .above level → ∀ patch ∈ a.operands,
      patch.tree?.isSome = true) (t : Tree) :
    table.mergeOperands inner (some (.tree t)) a =
      (table.mergeRootOperands inner t a).map fun t => some (.tree t) := by
  unfold mergeOperands mergeRootOperands
  split
  · next side level hoperator =>
    refine foldlM_hom (fun t => some (Value.tree t)) (fun patch hpatch t => ?_) t
    cases patch with
    | tree p =>
      change ((table.mergeTrees inner side t p).map Value.tree).map some = _
      rw [Option.map_map]
      rfl
    | _ =>
      cases side with
      | below => rfl
      | above => exact absurd (ha level hoperator _ hpatch) (by simp [Value.tree?])
  · rfl

/-- The patches of a merge with the whole tree are the operands of its identity. -/
theorem operands_of_mem_rootContents {c : Operator × Operands}
    (hc : c ∈ rootContents (table.declared t)) : c.2 = table.operandsAt ⟨c.1, ""⟩ t := by
  obtain ⟨i, -, hroot, rfl⟩ := (mem_rootContents_iff table).1 hc
  have hempty := List.isEmpty_iff.1 (Bool.and_eq_true_iff.1 hroot).2
  have hbase : i.base = "" := String.toList_inj.1 hempty
  rw [← hbase]

/-- Merging a tree at a key with what is declared for the whole tree is merging the tree with it. -/
theorem foldlM_mergeOperands_tree (htrees : ∀ level, ∀ patch ∈
      table.operandsAt ⟨.merge .above level, ""⟩ t, patch.tree?.isSome = true) (r₀ : Tree) :
    (outwardContents (rootContents (table.declared t))).foldlM
        (fun value c => table.mergeOperands inner value (.ofContent c)) (some (.tree r₀)) =
      ((outwards (numbered (rootContents (table.declared t)))).foldlM
        (table.mergeRootOperands inner) r₀).map fun r => some (.tree r) := by
  rw [outwardContents, List.foldlM_map]
  refine foldlM_hom (fun r => some (Value.tree r)) (fun a ha r => ?_) r₀
  have hmem : a.content ∈ rootContents (table.declared t) :=
    (perm_outwardContents _).mem_iff.1 (List.mem_map_of_mem ha)
  refine mergeOperands_tree (a := .ofContent a.content) (fun level hlevel patch hpatch => ?_) r
  have hoperands : a.operands = table.operandsAt ⟨a.operator, ""⟩ t :=
    operands_of_mem_rootContents hmem
  have hoperator : a.operator = .merge .above level := hlevel
  rw [hoperator] at hoperands
  exact htrees level patch (hoperands ▸ hpatch)

/-- A moved tree is reduced to what is left of the tree, merged from the value outwards, at the
plain key. -/
theorem reduceLevel_moved {x : String} {before after : Tree}
    (h : Moved table x base t before after) (hx : (Key.plain base).encode table = x)
    (htrees : ∀ level, ∀ patch ∈ table.operandsAt ⟨.merge .above level, ""⟩ t,
      patch.tree?.isSome = true) (u : Tree) :
    table.reduceLevel inner (before ++ (x, .tree u) :: after) =
      (inner u).bind fun r₀ =>
        ((outwards (numbered (rootContents (table.declared t)))).foldlM
          (table.mergeRootOperands inner) r₀).map fun r => [(x, .tree r)] := by
  have hkinds : ∀ c ∈ contentsAt (table.declared (before ++ (x, .tree u) :: after)) base,
      c.1.isAssign = true ∨ c.1.isMerge = true := by
    intro c hc
    obtain ⟨i, hi, -, -, rfl⟩ := (mem_contentsAt_iff table).1 hc
    rcases (h.kinds hi).2 with hassign | hmerge
    · exact Or.inl (by rw [hassign]; rfl)
    · exact Or.inr hmerge
  have hmerges : ((contentsAt (table.declared (before ++ (x, .tree u) :: after)) base).filter
      fun c => c.1.isMerge).Perm (outwardContents (rootContents (table.declared t))) := by
    rw [h.filter_contentsAt]
    exact (perm_outwardContents _).symm
  have hordered := pairwise_outwardContents fun c (hc : c ∈ rootContents (table.declared t)) =>
    isMerge_of_mem_rootContents table hc
  rw [reduceLevel_of_singleton (h.basesOf_eq _) (h.rootContents_eq _),
    reduceBase_of_merges hkinds hmerges hordered, h.operandsAt_assign, List.getLast?_singleton,
    reducePresent, Value.reduceWith, Option.map_map, Option.bind_map]
  apply Option.bind_congr
  intro r₀ _
  rw [Function.comp_apply]
  change Option.map _ (List.foldlM _ (some (Value.tree r₀)) _) = _
  rw [foldlM_mergeOperands_tree htrees, Option.map_map, hx]
  rfl

end Merging

/-- A moved tree weighs as much as the tree and the plain key. -/
theorem weight_moved {x : String} {before after : Tree}
    (h : before ++ after = table.rootMergesAt base t) :
    Tree.weight (before ++ (x, .tree (table.withoutRootMerges t)) :: after) =
      Tree.weight t + 2 := by
  have hmoved (u : Tree) : Tree.weight (u.map fun e => (e.1 ++ base, e.2)) = Tree.weight u := by
    induction u with
    | nil => rfl
    | cons e rest ih => simp only [List.map_cons, Tree.weight, ih]
  have hsplit (u : Tree) : Tree.weight (u.filter fun e => (table.identityOf e.1).isRootMerge) +
      Tree.weight (table.withoutRootMerges u) = Tree.weight u := by
    induction u with
    | nil => rfl
    | cons e rest ih =>
      simp only [withoutRootMerges] at ih ⊢
      by_cases he : (table.identityOf e.1).isRootMerge = true <;>
        simp only [he, List.filter_cons, if_true, Bool.not_true, Bool.not_false, Bool.false_eq_true,
          if_false, Tree.weight] <;> omega
  have hmerges : Tree.weight before + Tree.weight after =
      Tree.weight (t.filter fun e => (table.identityOf e.1).isRootMerge) := by
    rw [← Tree.weight_append, h, rootMergesAt, hmoved]
  have htotal := hsplit t
  rw [Tree.weight_append, Tree.weight, Value.weight]
  omega

section Agreement

variable {x : String} {before after : Tree}

/-- A key that is plain, canonical and not empty, and does not start with a chevron, has a base key
of this kind. -/
theorem moved_of_canonical (hplain : (Key.parse table x).isPlain = true)
    (hcanonical : (Key.parse table x).encode table = x) (hne : x ≠ "")
    (hhead : x.toList.head? ≠ some '>')
    (hmerges : before ++ after = table.rootMergesAt (Key.parse table x).base t) :
    Moved table x (Key.parse table x).base t before after where
  identityOf_eq := by
    obtain ⟨hoperator, -, -⟩ := Key.agrees_iff.1 (Key.agrees_plain hplain)
    rw [identityOf, Key.identity, hoperator]
    rfl
  base_ne h := by
    have hencoded := Key.encode_plain_base hplain hcanonical
    rw [Key.encode_plain_of_head (Or.inl h)] at hencoded
    exact hne (hencoded.symm.trans h)
  head?_ne h := by
    have hencoded := Key.encode_plain_base hplain hcanonical
    rw [Key.encode_plain_of_head (Or.inr h)] at hencoded
    exact hhead (hencoded ▸ h)
  merges_eq := hmerges

/-- Merges with the whole tree agree with merges at a key: the rest of the tree is reduced first, and
where it is reduced at a plain key with the merges moved to its base key, the same tree comes out at
that key. -/
theorem root_merges_agree (table : OperatorTable) (t : Tree) (x : String) (before after : Tree)
    (hplain : (Key.parse table x).isPlain = true)
    (hcanonical : (Key.parse table x).encode table = x) (hne : x ≠ "")
    (hhead : x.toList.head? ≠ some '>')
    (htrees : ∀ level, ∀ patch ∈ table.operandsAt ⟨.merge .above level, ""⟩ t,
      patch.tree?.isSome = true)
    (hmerges : before ++ after = table.rootMergesAt (Key.parse table x).base t) :
    (∀ r, table.Reduces t r →
      (∃ depth r₀, table.reduceWithin depth (table.withoutRootMerges t) = some r₀ ∧
        (outwards (Level.ofTree table t).rootMerges).foldlM
          (table.mergeRootOperands (table.reduceWithin depth)) r₀ = some r) ∧
      table.Reduces (before ++ (x, .tree (table.withoutRootMerges t)) :: after) [(x, .tree r)]) ∧
    ∀ r, table.reduce t = some r →
      table.reduce (before ++ (x, .tree (table.withoutRootMerges t)) :: after) =
        some [(x, .tree r)] := by
  have hmoved := moved_of_canonical hplain hcanonical hne hhead hmerges
  have hx := Key.encode_plain_base hplain hcanonical
  have hrest {depth : Nat} {r : Tree} (h : table.reduceWithin depth t = some r) :
      ∃ r₀, table.reduceWithin depth (table.withoutRootMerges t) = some r₀ ∧
        (outwards (numbered (rootContents (table.declared t)))).foldlM
          (table.mergeRootOperands (table.reduceWithin depth)) r₀ = some r := by
    cases depth with
    | zero => simp [reduceWithin] at h
    | succ depth =>
      have hlevel := reduceLevel_eq_rest table (table.reduceWithin depth) t
      obtain ⟨r₀, hr₀, hr⟩ := Option.bind_eq_some_iff.1 (hlevel.symm.trans h)
      refine ⟨r₀, hr₀, ?_⟩
      exact KeptBy.foldlM (keptBy_mergeRootOperands (extends_reduceWithin_succ table depth) table)
        _ r₀ r hr
  -- At a key the tree is one reduction further inside.
  have hkeyed {depth : Nat} {r : Tree} (h : table.reduceWithin depth t = some r) :
      table.reduceWithin (depth + 1)
        (before ++ (x, .tree (table.withoutRootMerges t)) :: after) = some [(x, .tree r)] := by
    obtain ⟨r₀, hr₀, hr⟩ := hrest h
    rw [reduceWithin, reduceLevel_moved hmoved hx htrees, hr₀, Option.bind_some, hr]
    rfl
  constructor
  · rintro r ⟨depth, h⟩
    obtain ⟨r₀, hr₀, hr⟩ := hrest h
    exact ⟨⟨depth, r₀, hr₀, (foldlM_rootMerges_eq table _ t r₀).trans hr⟩, depth + 1, hkeyed h⟩
  · intro r h
    refine reduceWithin_mono ?_ (hkeyed h)
    rw [weight_moved hmerges]
    omega

/-- Patches at two levels and on both sides, one of them no tree, agree at a key that is escaped. -/
theorem root_merges_agree_escaped :
    let t : Tree := [("#*>", .array [.tree [("+a", .number (.int 1))], .tree [("b", .null)]]),
      ("a", .number (.int 1)), ("<*", .bool true), ("*>>", .tree [("*a", .number (.int 3))]),
      ("*>a", .number (.int 2))]
    let rest : Tree := [("a", .number (.int 1)), ("*>a", .number (.int 2))]
    let u : Tree := [("#*>*y", .array [.tree [("+a", .number (.int 1))], .tree [("b", .null)]]),
      ("()*y", .tree rest), ("<**y", .bool true), ("*>>*y", .tree [("*a", .number (.int 3))])]
    let r : Tree := [("a", .number (.int 9)), ("b", .null)]
    empty.withoutRootMerges t = rest ∧ empty.Reduces t r ∧ empty.Reduces u [("()*y", .tree r)] := by
  intro t rest u r
  have hrest : empty.withoutRootMerges t = rest := by decide +kernel
  have hreduces : empty.Reduces t r := ⟨4, by decide +kernel⟩
  have htrees : ∀ level, ∀ patch ∈ empty.operandsAt ⟨.merge .above level, ""⟩ t,
      patch.tree?.isSome = true := by
    intro level patch hpatch
    have hidentities : empty.identities t = [⟨.merge .above 1, ""⟩, ⟨.assign, "a"⟩,
        ⟨.merge .below 1, ""⟩, ⟨.merge .above 2, ""⟩, ⟨.merge .above 1, "a"⟩] := by decide +kernel
    have hlevel : level = 1 ∨ level = 2 := by
      by_contra hother
      rw [operandsAt_eq_nil (by simpa [hidentities] using hother)] at hpatch
      exact List.not_mem_nil hpatch
    rcases hlevel with rfl | rfl <;> revert patch <;> decide +kernel
  have hagree := root_merges_agree empty t "()*y" (u.take 1) (u.drop 2) (by decide +kernel)
    (by decide +kernel) (by decide +kernel) (by decide +kernel) htrees (by decide +kernel)
  have hkeyed := (hagree.1 r hreduces).2
  rw [hrest] at hkeyed
  exact ⟨hrest, hreduces, hkeyed⟩

/-- A key that is written behind a merge is not read as it is when it stands alone: its escape
becomes part of the base key, so merges with an escaped key behind them go elsewhere. -/
theorem root_merges_disagree_behind_escape :
    ¬ ∀ (table : OperatorTable) (t : Tree) (x : String), (Key.parse table x).isPlain = true →
      (Key.parse table x).encode table = x → x ≠ "" → x.toList.head? ≠ some '>' →
      (∀ level, ∀ patch ∈ table.operandsAt ⟨.merge .above level, ""⟩ t,
        patch.tree?.isSome = true) →
      ∀ before after, before ++ after = table.rootMergesAt x t → ∀ r, table.Reduces t r →
        table.Reduces (before ++ (x, .tree (table.withoutRootMerges t)) :: after)
          [(x, .tree r)] := by
  intro hclaim
  let t : Tree := [("a", .number (.int 1)), ("*>", .tree [("a", .number (.int 2))])]
  have htrees : ∀ level, ∀ patch ∈ empty.operandsAt ⟨.merge .above level, ""⟩ t,
      patch.tree?.isSome = true := by
    intro level patch hpatch
    have hidentities : empty.identities t = [⟨.assign, "a"⟩, ⟨.merge .above 1, ""⟩] := by
      decide +kernel
    have hlevel : level = 1 := by
      by_contra hother
      rw [operandsAt_eq_nil (by simpa [hidentities] using hother)] at hpatch
      exact List.not_mem_nil hpatch
    subst hlevel
    revert patch
    decide +kernel
  have hkeyed := hclaim empty t "()*y" (by decide +kernel) (by decide +kernel) (by decide +kernel)
    (by decide +kernel) htrees [] (empty.rootMergesAt "()*y" t) rfl
    [("a", .number (.int 2))] ⟨3, by decide +kernel⟩
  have hactual : empty.Reduces ([] ++ ("()*y", .tree (empty.withoutRootMerges t)) ::
      empty.rootMergesAt "()*y" t) [("()*y", .tree [("a", .number (.int 1))]),
        ("()()*y", .tree [("a", .number (.int 2))])] := ⟨3, by decide +kernel⟩
  exact absurd (hkeyed.unique hactual) (by decide +kernel)

end Agreement

end OperatorTable

end Overlay
