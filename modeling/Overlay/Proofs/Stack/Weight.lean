import Overlay.Proofs.Stack.Merging

/-!
# What merging weighs

The operands of an identity, held under one key, weigh no more than the entries that they come from,
and a merged tree weighs no more than the entries that are merged. Both are counted identity by
identity: the entries for distinct identities are distinct parts of a tree. A collection costs one
array more than its operands, but it saves a key for each entry but one.
-/

namespace Overlay

/-- The weights of joined lists add up. -/
@[simp] theorem Value.weightOfItems_append (as bs : List Value) :
    weightOfItems (as ++ bs) = weightOfItems as + weightOfItems bs := by
  induction as with
  | nil => simp
  | cons a rest ih =>
    simp only [List.cons_append, weightOfItems, ih]
    omega

namespace Tree

/-- Entries of a kind and all others weigh what the tree weighs. -/
theorem weight_filter_add_filter_not (p : String × Value → Bool) (t : Tree) :
    weight (t.filter p) + weight (t.filter fun e => !p e) = weight t := by
  induction t with
  | nil => rfl
  | cons e rest ih =>
    obtain ⟨k, v⟩ := e
    cases hp : p (k, v) <;> simp [hp] <;> omega

/-- Trees that are joined weigh no more if each of them does not. -/
theorem weight_flatMap_le {α : Type} {as : List α} {f g : α → Tree}
    (h : ∀ a ∈ as, weight (f a) ≤ weight (g a)) :
    weight (as.flatMap f) ≤ weight (as.flatMap g) := by
  induction as with
  | nil => exact Nat.le_refl _
  | cons a rest ih =>
    have hfirst := h a List.mem_cons_self
    have hrest := ih fun b hb => h b (List.mem_cons_of_mem _ hb)
    rw [List.flatMap_cons, List.flatMap_cons, weight_append, weight_append]
    omega

/-- The entries under distinct keys weigh no more than the tree. -/
theorem weight_flatMap_filter_le {κ : Type} [DecidableEq κ] (key : String × Value → κ) {ks : List κ}
    (hks : ks.Nodup) (t : Tree) :
    weight (ks.flatMap fun k => t.filter fun e => key e == k) ≤ weight t := by
  induction ks generalizing t with
  | nil => exact Nat.zero_le _
  | cons k rest ih =>
    obtain ⟨hk, hrest⟩ := List.nodup_cons.1 hks
    -- The entries under the other keys are all among those that are not under the first.
    have hothers : (rest.flatMap fun l => t.filter fun e => key e == l) =
        rest.flatMap fun l => (t.filter fun e => !key e == k).filter fun e => key e == l := by
      refine List.flatMap_congr fun l hl => ?_
      rw [List.filter_filter]
      refine List.filter_congr fun e _ => ?_
      by_cases he : key e = l
      · have hne : l ≠ k := fun heq => hk (heq ▸ hl)
        simp [he, hne]
      · simp [he]
    have hsplit := weight_filter_add_filter_not (fun e => key e == k) t
    have hlater := ih hrest (t.filter fun e => !key e == k)
    rw [List.flatMap_cons, weight_append, hothers]
    omega

end Tree

/-- The weight of operands with their key. -/
def Operands.weight (operands : Operands) : Nat :=
  if operands.isEmpty then 0 else 1 + Value.weightOfItems operands

namespace Contribution

/-- The operands of an entry weigh no more than its value. -/
theorem weightOfItems_operands_le (c : Contribution) :
    Value.weightOfItems c.operands ≤ c.value.weight := by
  unfold operands Operands.ofValue
  split
  · next hvalue =>
    rw [hvalue, Value.weight]
    omega
  · simp

/-- The operands of entries weigh less than these, by their keys at least. -/
theorem weightOfItems_flatMap_operands_le (cs : List Contribution) :
    Value.weightOfItems (cs.flatMap operands) + cs.length ≤ totalWeight cs := by
  induction cs with
  | nil => exact Nat.le_refl _
  | cons c rest ih =>
    have hfirst := weightOfItems_operands_le c
    rw [List.flatMap_cons, Value.weightOfItems_append, List.length_cons, totalWeight, weight]
    omega

end Contribution

/-- Leading trees and the contributions after them make up a group. -/
theorem totalWeight_eq_leadingTrees (cs : List Contribution) :
    Contribution.totalWeight cs = 2 * (leadingTrees cs).length +
      Tree.weight (leadingTrees cs).flatten +
        Contribution.totalWeight (cs.drop (leadingTrees cs).length) := by
  induction cs with
  | nil => rfl
  | cons c rest ih =>
    unfold leadingTrees
    cases htree : c.assignedTree? with
    | none => simp
    | some t =>
      have hweight : c.weight = 2 + Tree.weight t := by
        unfold Contribution.assignedTree? at htree
        split at htree
        · cases hvalue : c.value <;> simp [hvalue, Value.tree?] at htree
          rw [Contribution.weight, hvalue, Value.weight, htree]
          omega
        · simp at htree
      simp only [Contribution.totalWeight, List.length_cons, List.flatten_cons, Tree.weight_append,
        List.drop_succ_cons, hweight]
      omega

namespace Group

variable {table : OperatorTable} {g : Group}

/-- A stacked group weighs no more than its entries. -/
theorem weight_stacked_le (table : OperatorTable) (hg : g.members ≠ []) :
    Tree.weight [g.stacked table] ≤ Contribution.totalWeight g.members := by
  obtain ⟨i, members⟩ := g
  match members with
  | [] => exact absurd rfl hg
  | [c] => simp [stacked, Contribution.weight]
  | c :: d :: rest =>
    have hoperands := Contribution.weightOfItems_flatMap_operands_le (c :: d :: rest)
    rw [List.length_cons, List.length_cons] at hoperands
    simp only [stacked, operands, Tree.weight, Value.weight]
    omega

/-- A merged group weighs no more than its entries, if the merged tree weighs no more than the leading
trees. -/
theorem weight_merged_le (table : OperatorTable) {tree : Tree} (htrees : 2 ≤ g.trees.length)
    (htree : Tree.weight tree ≤ Tree.weight g.trees.flatten) :
    Tree.weight [g.merged table tree] ≤ Contribution.totalWeight g.members := by
  have hsplit := totalWeight_eq_leadingTrees g.members
  change _ = 2 * g.trees.length + Tree.weight g.trees.flatten + Contribution.totalWeight g.others
    at hsplit
  have hothers := Contribution.weightOfItems_flatMap_operands_le g.others
  unfold merged
  split
  · simp only [Tree.weight, Value.weight]
    omega
  · simp only [Tree.weight, Value.weight, Value.weightOfItems]
    omega

end Group

namespace OperatorTable

variable {table : OperatorTable} {t : Tree}

/-- The contributions to an identity weigh what the entries for it weigh. -/
theorem totalWeight_membersAt (table : OperatorTable) (i : Identity) (t : Tree) :
    Contribution.totalWeight (table.membersAt i t) =
      Tree.weight (t.filter fun e => table.identityOf e.1 == i) := by
  rw [← Contribution.totalWeight_ofEntry table, membersAt, List.filter_map]
  rfl

/-- The operands of an identity weigh no more than the entries for it. -/
theorem weight_operandsAt_le (table : OperatorTable) (i : Identity) (t : Tree) :
    Operands.weight (table.operandsAt i t) ≤
      Tree.weight (t.filter fun e => table.identityOf e.1 == i) := by
  have hoperands := Contribution.weightOfItems_flatMap_operands_le (table.membersAt i t)
  rw [totalWeight_membersAt] at hoperands
  change Value.weightOfItems (table.operandsAt i t) + _ ≤ _ at hoperands
  unfold Operands.weight
  split
  · exact Nat.zero_le _
  · next hsome =>
    have hmembers : table.membersAt i t ≠ [] := by
      intro hnone
      rw [operandsAt, hnone] at hsome
      exact hsome rfl
    have hlength := List.length_pos_iff.2 hmembers
    omega

/-- Merging adds no weight. -/
theorem weight_mergeEntries_le (table : OperatorTable) (t : Tree) :
    Tree.weight (table.mergeEntries t) ≤ Tree.weight t := by
  induction hn : Tree.weight t using Nat.strongRecOn generalizing t with
  | ind n ih =>
    subst hn
    have hentry : ∀ i ∈ (table.identities t).eraseDups,
        Tree.weight [table.mergedEntry ⟨i, table.membersAt i t⟩] ≤
          Tree.weight (t.filter fun e => table.identityOf e.1 == i) := by
      intro i hi
      have hg : Group.mk i (table.membersAt i t) ∈ Group.ofEntries table t := by
        rw [ofEntries_eq_map]
        exact List.mem_map_of_mem hi
      rw [← totalWeight_membersAt]
      unfold mergedEntry
      split
      · next htrees =>
        have hlt := Group.weight_trees_lt hg (List.ne_nil_of_length_pos (by omega))
        exact Group.weight_merged_le table htrees (ih _ hlt _ rfl)
      · exact Group.weight_stacked_le table (membersAt_ne_nil_iff.2 (List.mem_eraseDups.1 hi))
    rw [mergeEntries_eq_map, ofEntries_eq_map, List.map_map, List.map_eq_flatMap]
    exact Nat.le_trans (Tree.weight_flatMap_le hentry)
      (Tree.weight_flatMap_filter_le (fun e => table.identityOf e.1) (nodup_eraseDups _) t)

end OperatorTable

end Overlay
