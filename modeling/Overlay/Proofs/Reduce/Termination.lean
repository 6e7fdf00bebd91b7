import Overlay.Proofs.Reduce.Builtin
import Overlay.Proofs.Reduce.Locality
import Overlay.Proofs.Reduce.RootMerges
import Overlay.Proofs.Stack.Weight

/-!
# Reduction ends without custom operators

Weight is what a reduction runs on. Every key pays for the operands that it holds: a value at a base
key weighs no more than the operands that went into it, and what an operator leaves weighs no more than
its operands. So each inner tree that a level asks for weighs less than the level, and a reduced tree
weighs no more than the tree that it is reduced from. Without custom operators, which are free to build
trees, every tree can be reduced, and reduction is the one function that reduces a level by itself.
-/

namespace Overlay

/-- The weight of operators with their operands, each with the key of its operands. -/
def contentsWeight (cs : Contents) : Nat := totalCost (fun c => Operands.weight c.2) cs

/-- The weight of a value with its key, if it is present. -/
def presentWeight : Option Value → Nat
  | none => 0
  | some v => 1 + v.weight

/-- A reduction that has answers for all trees below a weight, none of which weighs more than the
tree. -/
def Reduction.Answers (inner : Reduction) (bound : Nat) : Prop :=
  ∀ t, Tree.weight t < bound → ∃ r, inner t = some r ∧ Tree.weight r ≤ Tree.weight t

/-- The last operand weighs no more than all operands. -/
theorem presentWeight_getLast?_le (operands : Operands) :
    presentWeight operands.getLast? ≤ Operands.weight operands := by
  cases operands using List.reverseRecOn with
  | nil => exact Nat.zero_le _
  | append_singleton operands v =>
    rw [List.getLast?_concat, presentWeight, Operands.weight, if_neg (by simp),
      Value.weightOfItems_append]
    simp only [Value.weightOfItems]
    omega

section Central

/-- A number is written as a number, unless it is not finite. -/
theorem toValue_cases (n : Number) : n.toValue = .null ∨ ∃ m, n.toValue = .number m := by
  cases n with
  | int n => exact .inr ⟨.int n, rfl⟩
  | float x =>
    change Value.ofFloat x = .null ∨ ∃ m, Value.ofFloat x = .number m
    unfold Value.ofFloat
    cases Binary.ofFloat? x with
    | none => exact .inl rfl
    | some b =>
      cases hn : b.toInt? with
      | none => simp [hn]
      | some n => by_cases hexact : n.natAbs ≤ Value.greatestExact <;> simp [hn, hexact]

/-- A number is written as a value of weight one. -/
theorem weight_toValue (n : Number) : n.toValue.weight = 1 := by
  obtain h | ⟨m, h⟩ := toValue_cases n <;> rw [h] <;> rfl

/-- Arrays among operands weigh less than these, each by itself. -/
theorem weight_filterMap_items?_le (operands : Operands) :
    Value.weightOfItems (operands.filterMap Value.items?).flatten +
      (operands.filterMap Value.items?).length ≤ Value.weightOfItems operands := by
  induction operands with
  | nil => exact Nat.le_refl _
  | cons v rest ih =>
    cases v with
    | array items =>
      rw [List.filterMap_cons_some (f := Value.items?) rfl, List.flatten_cons,
        Value.weightOfItems_append, List.length_cons, Value.weightOfItems, Value.weight]
      omega
    | _ =>
      rw [List.filterMap_cons_none (f := Value.items?) rfl, Value.weightOfItems]
      omega

/-- Operands weigh the same in reverse. -/
theorem weightOfItems_reverse (operands : Operands) :
    Value.weightOfItems operands.reverse = Value.weightOfItems operands := by
  induction operands with
  | nil => rfl
  | cons v rest ih =>
    rw [List.reverse_cons, Value.weightOfItems_append, ih, Value.weightOfItems, Value.weightOfItems,
      Value.weightOfItems]
    omega

/-- The weight of a list is that of its items together. -/
theorem weightOfItems_eq_totalCost (vs : List Value) :
    Value.weightOfItems vs = totalCost Value.weight vs := by
  induction vs with
  | nil => rfl
  | cons v rest ih => rw [Value.weightOfItems, ih, totalCost]

/-- An item weighs no more than the list. -/
theorem weight_le_weightOfItems {v : Value} {vs : List Value} (h : v ∈ vs) :
    v.weight ≤ Value.weightOfItems vs := by
  induction vs with
  | nil => exact absurd h List.not_mem_nil
  | cons w rest ih =>
    rw [Value.weightOfItems]
    rcases List.mem_cons.1 h with rfl | h
    · exact Nat.le_add_right _ _
    · exact Nat.le_add_left_of_le (ih h)

/-- The outcome of applying an operator is frugal if the value and what is left weigh no more than the
value and the operands before, and one operand is left at most. -/
structure IsFrugal (value : Option Value) (operands : Operands)
    (applied : Option Value × Operands) : Prop where
  length_le : applied.2.length ≤ 1
  weight_le : presentWeight applied.1 + Operands.weight applied.2 ≤
    presentWeight value + Operands.weight operands

section Frugal

variable {value : Option Value} {operands : Operands}

/-- Operands with their key weigh no less than without it. -/
theorem weightOfItems_le_weight (operands : Operands) :
    Value.weightOfItems operands ≤ Operands.weight operands := by
  cases operands with
  | nil => exact Nat.le_refl _
  | cons v rest => exact Nat.le_add_left _ _

/-- It is frugal to make another value and to leave nothing, if the value takes no more than the
operands. -/
theorem isFrugal_changed {result : Option Value}
    (h : presentWeight result ≤ presentWeight value + Value.weightOfItems operands) :
    IsFrugal value operands (result, []) := by
  have hnone : Operands.weight [] = 0 := rfl
  have hkey := weightOfItems_le_weight operands
  refine ⟨Nat.zero_le _, ?_⟩
  change presentWeight result + Operands.weight [] ≤ _
  omega

/-- It is frugal to keep the value and to leave an operand that is no heavier than all operands. -/
theorem isFrugal_left {left : Value} (h : left.weight ≤ Value.weightOfItems operands) :
    IsFrugal value operands (value, [left]) := by
  have hpos := left.weight_pos
  have hone : Operands.weight [left] = 1 + (left.weight + 0) := rfl
  refine ⟨Nat.le_refl _, ?_⟩
  change presentWeight value + Operands.weight [left] ≤ _
  cases operands with
  | nil =>
    simp only [Value.weightOfItems] at h
    omega
  | cons v rest =>
    have hkey : Operands.weight (v :: rest) = 1 + Value.weightOfItems (v :: rest) := rfl
    omega

/-- Arithmetic is frugal. -/
theorem isFrugal_calculate (operation : Number → Number → Number) (unit : Number)
    (value : Option Value) (operands : Operands) :
    IsFrugal value operands (calculate operation unit value operands) := by
  unfold calculate
  split
  · exact isFrugal_changed (Nat.le_add_right _ _)
  · next hnone =>
    have hsome : 1 ≤ Value.weightOfItems operands := by
      obtain ⟨n, hn⟩ := List.exists_mem_of_ne_nil _ hnone
      obtain ⟨v, hv, -⟩ := List.mem_filterMap.1 hn
      exact Nat.le_trans v.weight_pos (weight_le_weightOfItems hv)
    split
    · next current hcurrent =>
      refine isFrugal_changed ?_
      rw [presentWeight, weight_toValue]
      cases value with
      | none => simp at hcurrent
      | some v =>
        have hpos := v.weight_pos
        simp only [presentWeight]
        omega
    · refine isFrugal_left ?_
      rw [weight_toValue]
      exact hsome

/-- Joining arrays is frugal. -/
theorem isFrugal_spliceArrays {splice : List Value → List Value → List Value}
    (hsplice : ∀ items joined, Value.weightOfItems (splice items joined) =
      Value.weightOfItems items + Value.weightOfItems joined) {arrays : List (List Value)}
    (harrays : Value.weightOfItems arrays.flatten + arrays.length ≤ Value.weightOfItems operands)
    (value : Option Value) : IsFrugal value operands (spliceArrays splice arrays value) := by
  unfold spliceArrays
  split
  · exact isFrugal_changed (Nat.le_add_right _ _)
  · refine isFrugal_changed ?_
    simp only [presentWeight, Value.weight, hsplice]
    omega
  · next hnone _ =>
    have hlength := List.length_pos_iff.2 hnone
    refine isFrugal_left ?_
    rw [Value.weight]
    omega

/-- The central operators are frugal. -/
theorem isFrugal_apply (table : OperatorTable) {o : Operator} (ho : o.isCentral = true)
    (value : Option Value) (operands : Operands) :
    IsFrugal value operands (table.apply o value operands) := by
  cases o with
  | multiply => exact isFrugal_calculate _ _ value operands
  | add => exact isFrugal_calculate _ _ value operands
  | prepend =>
    have hsplice (items joined : List Value) : Value.weightOfItems (joined ++ items) =
        Value.weightOfItems items + Value.weightOfItems joined := by
      rw [Value.weightOfItems_append, Nat.add_comm]
    have harrays := weight_filterMap_items?_le operands.reverse
    rw [weightOfItems_reverse] at harrays
    exact isFrugal_spliceArrays hsplice harrays value
  | append =>
    exact isFrugal_spliceArrays Value.weightOfItems_append (weight_filterMap_items?_le operands) value
  | _ => simp [Operator.isCentral] at ho

end Frugal

end Central

namespace OperatorTable

variable {table : OperatorTable} {inner : Reduction} {bound : Nat}

/-- The value and the entries that the central operators come to weigh no more than the value and the
operands before. -/
theorem weight_applyEach_le (table : OperatorTable) {cs : Contents}
    (hcs : ∀ c ∈ cs, c.1.isCentral = true) (base : String) (value : Option Value) :
    presentWeight (table.applyEach value cs).1 +
        Tree.weight (table.residueEntries base (table.applyEach value cs).2) ≤
      presentWeight value + contentsWeight cs := by
  induction cs generalizing value with
  | nil => exact Nat.le_refl _
  | cons c rest ih =>
    have hrest := ih (fun d hd => hcs d (List.mem_cons_of_mem _ hd)) (table.apply c.1 value c.2).1
    obtain ⟨hlength, hweight⟩ := isFrugal_apply table (hcs c List.mem_cons_self) value c.2
    have hentry (lefts : Contents) : Tree.weight (table.residueEntries base
        ((c.1, (table.apply c.1 value c.2).2) :: lefts)) =
          Operands.weight (table.apply c.1 value c.2).2 +
            Tree.weight (table.residueEntries base lefts) := by
      match hleft : (table.apply c.1 value c.2).2 with
      | [] =>
        rw [residueEntries_cons_nil]
        exact (Nat.zero_add _).symm
      | [v] =>
        rw [residueEntries_cons_singleton]
        rfl
      | v :: w :: rest => simp [hleft] at hlength
    simp only [applyEach, contentsWeight, totalCost, hentry] at hrest ⊢
    omega

/-- The operators at a base key have the operands of their identities there. -/
theorem operands_of_mem_contentsAt {t : Tree} {base : String} {c : Operator × Operands}
    (hc : c ∈ contentsAt (table.declared t) base) : c.2 = table.operandsAt ⟨c.1, base⟩ t := by
  obtain ⟨i, -, rfl, -, rfl⟩ := (mem_contentsAt_iff table).1 hc
  rfl

/-- Distinct operators with the operands of their identities weigh no more than the tree. -/
theorem contentsWeight_le (table : OperatorTable) (base : String) {t : Tree} {cs : Contents}
    (hnodup : (cs.map Prod.fst).Nodup) (hcs : ∀ c ∈ cs, c.2 = table.operandsAt ⟨c.1, base⟩ t) :
    contentsWeight cs ≤ Tree.weight t := by
  have hentries : contentsWeight cs ≤ Tree.weight ((cs.map fun c => Identity.mk c.1 base).flatMap
      fun i => t.filter fun e => table.identityOf e.1 == i) := by
    clear hnodup
    induction cs with
    | nil => exact Nat.le_refl _
    | cons c rest ih =>
      have hfirst := weight_operandsAt_le table ⟨c.1, base⟩ t
      rw [← hcs c List.mem_cons_self] at hfirst
      have hrest := ih fun d hd => hcs d (List.mem_cons_of_mem _ hd)
      rw [List.map_cons, List.flatMap_cons, Tree.weight_append]
      simp only [contentsWeight, totalCost] at hrest ⊢
      omega
  have hidentities : (cs.map fun c => Identity.mk c.1 base).Nodup := by
    have hmap := hnodup.map (f := fun o => Identity.mk o base) fun o o' h => (Identity.mk.inj h).1
    rwa [List.map_map] at hmap
  exact Nat.le_trans hentries
    (Tree.weight_flatMap_filter_le (fun e => table.identityOf e.1) hidentities t)

/-- The plain operator, the merges and the central operators at a base key are distinct. -/
theorem nodup_operators (table : OperatorTable) (base : String) (t : Tree) :
    (Operator.assign :: ((table.mergesBelow base t).map Prod.fst ++
      (Operator.centrals ++ (table.mergesAbove base t).map Prod.fst))).Nodup := by
  have hbelow : ∀ o ∈ (table.mergesBelow base t).map Prod.fst, o.isMergeBelow = true := by
    intro o ho
    obtain ⟨c, hc, rfl⟩ := List.mem_map.1 ho
    exact (isMergeBelow_of_mem_mergesBelow hc).2
  have habove : ∀ o ∈ (table.mergesAbove base t).map Prod.fst, o.isMerge = true ∧ o.isApplied = true := by
    intro o ho
    obtain ⟨c, hc, rfl⟩ := List.mem_map.1 ho
    exact Operator.isApplied_of_isMergeAbove (isMergeAbove_of_mem_mergesAbove hc).2
  have happlied : ∀ o ∈ Operator.centrals ++ (table.mergesAbove base t).map Prod.fst,
      o.isApplied = true := by
    intro o ho
    rcases List.mem_append.1 ho with ho | ho
    · exact Operator.isApplied_of_isCentral (Operator.mem_centrals_iff.1 ho)
    · exact (habove o ho).2
  have hmerges (p : Operator → Bool) : ((outwardContents ((contentsAt (table.declared t) base).filter
      fun c => p c.1)).map Prod.fst).Nodup :=
    ((perm_outwardContents _).map Prod.fst).nodup_iff.2
      ((List.filter_sublist.map Prod.fst).nodup (nodup_contentsAt table t base))
  refine List.nodup_cons.2 ⟨fun hmem => ?_, List.nodup_append.2 ⟨hmerges Operator.isMergeBelow,
    List.nodup_append.2 ⟨by decide, hmerges Operator.isMergeAbove, ?_⟩, ?_⟩⟩
  · rcases List.mem_append.1 hmem with hmem | hmem
    · exact Bool.false_ne_true (hbelow _ hmem)
    · exact Bool.false_ne_true (happlied _ hmem)
  · rintro o ho _ ho' rfl
    have hmerge := Operator.isMerge_of_isCentral (Operator.mem_centrals_iff.1 ho)
    exact Bool.false_ne_true (hmerge.symm.trans (habove o ho').1)
  · rintro o ho _ ho' rfl
    have hkind := happlied o ho'
    simp [Operator.isApplied, hbelow o ho] at hkind

/-- The plain operands, the merges and the central operators at a base key weigh no more together than
the tree. -/
theorem weight_contents_le (table : OperatorTable) (base : String) (t : Tree) :
    Operands.weight (table.operandsAt ⟨.assign, base⟩ t) +
        contentsWeight (table.mergesBelow base t) + contentsWeight (table.centralContents base t) +
          contentsWeight (table.mergesAbove base t) ≤ Tree.weight t := by
  let cs : Contents := (.assign, table.operandsAt ⟨.assign, base⟩ t) ::
    (table.mergesBelow base t ++ (table.centralContents base t ++ table.mergesAbove base t))
  have hnodup : (cs.map Prod.fst).Nodup := by
    simp only [cs, List.map_cons, List.map_append, map_fst_centralContents]
    exact nodup_operators table base t
  have hcs : ∀ c ∈ cs, c.2 = table.operandsAt ⟨c.1, base⟩ t := by
    intro c hc
    simp only [cs, List.mem_cons, List.mem_append] at hc
    rcases hc with rfl | hc | hc | hc
    · rfl
    · exact operands_of_mem_contentsAt (isMergeBelow_of_mem_mergesBelow hc).1
    · obtain ⟨o, -, rfl⟩ := List.mem_map.1 hc
      rfl
    · exact operands_of_mem_contentsAt (isMergeAbove_of_mem_mergesAbove hc).1
  have hle := contentsWeight_le table base hnodup hcs
  simp only [cs, contentsWeight, totalCost, totalCost_append] at hle ⊢
  omega

end OperatorTable

namespace Reduction.Answers

variable {inner : Reduction} {bound : Nat} (h : inner.Answers bound)

include h

/-- A value can be reduced and gets no heavier. -/
theorem exists_reduceWith {v : Value} (hv : v.weight ≤ bound) :
    ∃ w, v.reduceWith inner = some w ∧ w.weight ≤ v.weight := by
  cases v with
  | tree t =>
    rw [Value.weight] at hv
    obtain ⟨r, hr, hweight⟩ := h t (by omega)
    refine ⟨.tree r, by rw [Value.reduceWith, hr]; rfl, ?_⟩
    rw [Value.weight, Value.weight]
    omega
  | _ => exact ⟨_, rfl, Nat.le_refl _⟩

/-- A value that may be absent can be reduced and gets no heavier. -/
theorem exists_reducePresent (value : Option Value) (hvalue : presentWeight value ≤ bound) :
    ∃ result, reducePresent inner value = some result ∧
      presentWeight result ≤ presentWeight value := by
  cases value with
  | none => exact ⟨none, rfl, Nat.le_refl _⟩
  | some v =>
    rw [presentWeight] at hvalue
    obtain ⟨w, hw, hweight⟩ := h.exists_reduceWith (v := v) (by omega)
    refine ⟨some w, by rw [reducePresent, hw]; rfl, ?_⟩
    rw [presentWeight, presentWeight]
    omega

variable (table : OperatorTable)

/-- Trees can be merged and reduced, and get no heavier together. -/
theorem exists_mergeTrees (side : Side) (tree patch : Tree)
    (hweight : Tree.weight tree + Tree.weight patch < bound) :
    ∃ r, table.mergeTrees inner side tree patch = some r ∧
      Tree.weight r ≤ Tree.weight tree + Tree.weight patch := by
  have hmerged := OperatorTable.weight_mergeEntries_le table (side.layers tree patch).flatten
  have hlayers : Tree.weight (side.layers tree patch).flatten =
      Tree.weight tree + Tree.weight patch := by
    cases side <;> simp [Side.layers, Nat.add_comm]
  obtain ⟨r, hr, hle⟩ := h (table.merge (side.layers tree patch)) (by
    rw [OperatorTable.merge]
    omega)
  refine ⟨r, hr, Nat.le_trans hle ?_⟩
  rw [OperatorTable.merge]
  omega

/-- A patch can be merged with a value, and adds no more than its weight, and that of a key if there
was no value before. -/
theorem exists_mergePatch (side : Side) (value : Option Value) (patch : Value)
    (hweight : presentWeight value + patch.weight ≤ bound) :
    ∃ v, table.mergePatch inner side value patch = some v ∧
      presentWeight (some v) ≤ max 1 (presentWeight value) + patch.weight := by
  obtain ⟨w, hw, hpatch⟩ := h.exists_reduceWith (v := patch) (by omega)
  cases value with
  | none =>
    refine ⟨w, by cases side <;> exact hw, ?_⟩
    simp only [presentWeight]
    omega
  | some value =>
    have hkept : presentWeight (some value) ≤ max 1 (presentWeight (some value)) + patch.weight := by
      omega
    have hlaid : presentWeight (some w) ≤ max 1 (presentWeight (some value)) + patch.weight := by
      simp only [presentWeight]
      omega
    cases value with
    | tree t =>
      cases patch with
      | tree p =>
        simp only [presentWeight, Value.weight] at hweight ⊢
        obtain ⟨r, hr, hle⟩ := h.exists_mergeTrees table side t p (by omega)
        refine ⟨.tree r, by rw [OperatorTable.mergePatch, hr]; rfl, ?_⟩
        rw [Value.weight]
        omega
      | _ =>
        cases side with
        | below => exact ⟨_, rfl, hkept⟩
        | above => exact ⟨w, hw, hlaid⟩
    | _ =>
      cases side with
      | below => exact ⟨_, by cases patch <;> rfl, hkept⟩
      | above => exact ⟨w, hw, hlaid⟩

/-- All operands of a merge can be merged with a value, and add no more than their weight. -/
theorem exists_mergeOperands {value : Option Value} (c : Operator × Operands)
    (hweight : presentWeight value + Operands.weight c.2 ≤ bound) :
    ∃ result, table.mergeOperands inner value (.ofContent c) = some result ∧
      presentWeight result ≤ presentWeight value + Operands.weight c.2 := by
  obtain ⟨o, operands⟩ := c
  unfold OperatorTable.mergeOperands
  split
  · next side level _ =>
    change presentWeight value + Operands.weight operands ≤ bound at hweight
    cases operands with
    | nil => exact ⟨value, rfl, Nat.le_add_right _ _⟩
    | cons patch rest =>
      have hkey : Operands.weight (patch :: rest) =
          1 + totalCost Value.weight (patch :: rest) := by
        rw [← weightOfItems_eq_totalCost]
        rfl
      have hstep (value : Option Value) (patch : Value)
          (hpatch : max 1 (presentWeight value) + patch.weight ≤ bound) :
          ∃ result, (table.mergePatch inner side value patch).map some = some result ∧
            max 1 (presentWeight result) ≤ max 1 (presentWeight value) + patch.weight := by
        obtain ⟨v, hv, hle⟩ := h.exists_mergePatch table side value patch (by omega)
        refine ⟨some v, by rw [hv]; rfl, ?_⟩
        omega
      have hall : max 1 (presentWeight value) + totalCost Value.weight (patch :: rest) ≤ bound := by
        omega
      obtain ⟨result, hresult, hle⟩ := exists_foldlM_within hstep hall
      refine ⟨result, hresult, ?_⟩
      change presentWeight result ≤ presentWeight value + Operands.weight (patch :: rest)
      omega
  · exact ⟨value, rfl, Nat.le_add_right _ _⟩

/-- All merges on a side can be made with a value, and add no more than their weight. -/
theorem exists_foldlM_mergeOperands (value : Option Value) (cs : Contents)
    (hweight : presentWeight value + contentsWeight cs ≤ bound) :
    ∃ result, cs.foldlM (fun value c => table.mergeOperands inner value (.ofContent c)) value =
        some result ∧
      presentWeight result ≤ presentWeight value + contentsWeight cs :=
  exists_foldlM_within (fun _ c => h.exists_mergeOperands table c) hweight

/-- All operands of a merge can be merged with the whole tree, and add no more than their weight. -/
theorem exists_mergeRootOperands {t : Tree} (c : Operator × Operands)
    (hweight : Tree.weight t + Operands.weight c.2 ≤ bound) :
    ∃ r, table.mergeRootOperands inner t (.ofContent c) = some r ∧
      Tree.weight r ≤ Tree.weight t + Operands.weight c.2 := by
  obtain ⟨o, operands⟩ := c
  have hkey := weightOfItems_le_weight operands
  rw [weightOfItems_eq_totalCost] at hkey
  unfold OperatorTable.mergeRootOperands
  split
  · next side level _ =>
    have hstep (t : Tree) (patch : Value) (hpatch : Tree.weight t + patch.weight ≤ bound) :
        ∃ r, table.mergeRootPatch inner side t patch = some r ∧
          Tree.weight r ≤ Tree.weight t + patch.weight := by
      cases patch with
      | tree p =>
        rw [Value.weight] at hpatch ⊢
        obtain ⟨r, hr, hle⟩ := h.exists_mergeTrees table side t p (by omega)
        exact ⟨r, hr, by omega⟩
      | _ => exact ⟨t, rfl, Nat.le_add_right _ _⟩
    have hall : Tree.weight t + totalCost Value.weight operands ≤ bound :=
      Nat.le_trans (Nat.add_le_add_left hkey _) hweight
    obtain ⟨r, hr, hle⟩ := exists_foldlM_within hstep hall
    exact ⟨r, hr, Nat.le_trans hle (Nat.add_le_add_left hkey _)⟩
  · exact ⟨t, rfl, Nat.le_add_right _ _⟩

/-- All merges with the whole tree can be made, and add no more than their weight. -/
theorem exists_foldlM_mergeRootOperands (t : Tree) (cs : Contents)
    (hweight : Tree.weight t + contentsWeight cs ≤ bound) :
    ∃ r, cs.foldlM (fun t c => table.mergeRootOperands inner t (.ofContent c)) t = some r ∧
      Tree.weight r ≤ Tree.weight t + contentsWeight cs :=
  exists_foldlM_within (fun _ c => h.exists_mergeRootOperands table c) hweight

variable {table} {t : Tree}

/-- Without custom operators each base key can be reduced, and its entries weigh no more than the
tree. -/
theorem exists_reduceBase {base : String}
    (hcustom : ∀ c ∈ contentsAt (table.declared t) base, ∀ name, c.1 ≠ .custom name)
    (hweight : Tree.weight t ≤ bound) :
    ∃ entries, table.reduceBase inner base (numbered (contentsAt (table.declared t) base)) =
      some entries ∧ Tree.weight entries ≤ Tree.weight t := by
  have hbudget := OperatorTable.weight_contents_le table base t
  have hassigned := presentWeight_getLast?_le (table.operandsAt ⟨.assign, base⟩ t)
  obtain ⟨start, hstart, hle⟩ :=
    h.exists_reducePresent (table.operandsAt ⟨.assign, base⟩ t).getLast? (by omega)
  obtain ⟨value, hvalue, hle₁⟩ :=
    h.exists_foldlM_mergeOperands table start (table.mergesBelow base t) (by omega)
  have hcentral := OperatorTable.weight_applyEach_le table
    (fun c (hc : c ∈ table.centralContents base t) =>
      OperatorTable.isCentral_of_mem_centralContents hc) base value
  obtain ⟨settled, hsettled, hle₂⟩ : ∃ settled, table.settleCentral inner base t value = some settled ∧
      presentWeight settled ≤
        presentWeight (table.applyEach value (table.centralContents base t)).1 := by
    unfold OperatorTable.settleCentral
    cases hnone : table.hasCentral base t with
    | true => exact h.exists_reducePresent _ (by omega)
    | false =>
      rw [(OperatorTable.applyEach_of_hasCentral_eq_false hnone value).1]
      exact ⟨value, rfl, Nat.le_refl _⟩
  obtain ⟨final, hfinal, hle₃⟩ :=
    h.exists_foldlM_mergeOperands table settled (table.mergesAbove base t) (by omega)
  have hplain : Tree.weight (final.toList.map fun v => ((Key.plain base).encode table, v)) =
      presentWeight final := by
    cases final <;> rfl
  refine ⟨(final.toList.map fun v => ((Key.plain base).encode table, v)) ++ table.residueEntries base
    (table.applyEach value (table.centralContents base t)).2, ?_, ?_⟩
  · rw [OperatorTable.reduceBase_of_builtin hcustom, hstart, Option.bind_some, hvalue,
      Option.bind_some, hsettled, Option.bind_some, hfinal]
    rfl
  · rw [Tree.weight_append, hplain]
    omega

end Reduction.Answers

namespace OperatorTable

variable {inner : Reduction} {bound : Nat} {t : Tree}

/-- The empty table knows no custom operators. -/
theorem ne_custom_of_mem_contentsAt {base : String} {c : Operator × Operands}
    (hc : c ∈ contentsAt (empty.declared t) base) (name : String) : c.1 ≠ .custom name := by
  intro hname
  have hfits := fitsBefore_of_mem_contentsAt empty hc
  rw [hname] at hfits
  exact Bool.false_ne_true hfits

/-- Without custom operators a level can be reduced, and gets no heavier. -/
theorem exists_reduceLevel_empty (h : inner.Answers bound) (hweight : Tree.weight t ≤ bound) :
    ∃ r, empty.reduceLevel inner t = some r ∧ Tree.weight r ≤ Tree.weight t := by
  let rest := empty.withoutRootMerges t
  let merges := t.filter fun e => (empty.identityOf e.1).isRootMerge
  have hsplit : Tree.weight rest + Tree.weight merges = Tree.weight t := by
    have hparts := Tree.weight_filter_add_filter_not
      (fun e => (empty.identityOf e.1).isRootMerge) t
    simp only [rest, merges, withoutRootMerges]
    omega
  have hroot : ∀ i ∈ empty.identities rest, i.isRootMerge = false := by
    intro i hi
    obtain ⟨e, he, rfl⟩ := List.mem_map.1 hi
    simpa using (List.mem_filter.1 he).2
  let block (base : String) : Tree := (empty.reduceLevel inner (empty.atBase base rest)).getD []
  have hblock : ∀ base ∈ empty.bases rest,
      empty.reduceLevel inner (empty.atBase base rest) = some (block base) ∧
        Tree.weight (block base) ≤ Tree.weight (empty.atBase base rest) := by
    intro base _
    have hweight' : Tree.weight (empty.atBase base rest) ≤ bound := by
      have hpart := Tree.weight_filter_add_filter_not (fun e => empty.baseOf e == base) rest
      simp only [atBase]
      omega
    obtain ⟨entries, hentries, hle⟩ := h.exists_reduceBase
      (fun _ hc => ne_custom_of_mem_contentsAt hc) hweight'
    have hlevel : empty.reduceLevel inner (empty.atBase base rest) = some entries := by
      rw [reduceLevel_atBase (rootContents_eq_nil empty (isRootMerge_atBase hroot base)),
        ← contentsAt_atBase]
      exact hentries
    simp only [block, hlevel]
    exact ⟨rfl, hle⟩
  have hrest := reduceLevel_of_atBase hroot fun base hbase => (hblock base hbase).1
  have hle : Tree.weight ((empty.bases rest).flatMap block) ≤ Tree.weight rest :=
    Nat.le_trans (Tree.weight_flatMap_le fun base hbase => (hblock base hbase).2)
      (Tree.weight_flatMap_filter_le empty.baseOf (nodup_eraseDups _) rest)
  have hmerges : contentsWeight (outwardContents (rootContents (empty.declared t))) ≤
      Tree.weight merges := by
    have hperm := perm_outwardContents (rootContents (empty.declared t))
    refine contentsWeight_le empty "" ((hperm.map Prod.fst).nodup_iff.2 (nodup_rootContents empty t))
      fun c hc => ?_
    have hc' := hperm.mem_iff.1 hc
    have hmerge : (⟨c.1, ""⟩ : Identity).isRootMerge = true := by
      rw [Identity.isRootMerge, isMerge_of_mem_rootContents empty hc']
      rfl
    rw [operands_of_mem_rootContents hc']
    exact (operandsAt_filter hmerge t).symm
  obtain ⟨r, hr, hrle⟩ := h.exists_foldlM_mergeRootOperands empty
    ((empty.bases rest).flatMap block) (outwardContents (rootContents (empty.declared t))) (by omega)
  refine ⟨r, ?_, by omega⟩
  rw [reduceLevel_eq_rest, hrest, Option.bind_some, foldlM_mergeRootOperands_content]
  exact hr

/-- Without custom operators a depth above the weight of a tree is enough to reduce it. -/
theorem answers_reduceWithin (depth : Nat) :
    Reduction.Answers (empty.reduceWithin depth) depth := by
  induction depth with
  | zero => exact fun t ht => absurd ht (Nat.not_lt_zero _)
  | succ depth ih => exact fun t ht => exists_reduceLevel_empty ih (Nat.le_of_lt_succ ht)

/-- Without custom operators every tree can be reduced, and gets no heavier. -/
theorem exists_reduce (t : Tree) :
    ∃ r, empty.reduce t = some r ∧ Tree.weight r ≤ Tree.weight t :=
  answers_reduceWithin _ t (by rw [spareDepth]; omega)

/-- Without custom operators a tree reduces to what reduction makes of it. -/
theorem reduces_iff_reduce {r : Tree} : empty.Reduces t r ↔ empty.reduce t = some r := by
  refine ⟨fun h => ?_, reduces_of_reduce⟩
  obtain ⟨s, hs, -⟩ := exists_reduce t
  rwa [h.unique (reduces_of_reduce hs)]

/-- Without custom operators reduction reduces a level by itself. -/
theorem reduceLevel_reduce (t : Tree) : empty.reduceLevel empty.reduce t = empty.reduce t := by
  obtain ⟨r, hr, -⟩ := exists_reduce t
  obtain ⟨depth, hdepth⟩ := (reduces_of_reduce hr).exists_reduceLevel
  have hextends : Reduction.Extends empty.reduce (empty.reduceWithin depth) :=
    fun u s hs => reduces_iff_reduce.1 ⟨depth, hs⟩
  rw [hr]
  exact keptBy_reduceLevel hextends empty t r hdepth

end OperatorTable

end Overlay
