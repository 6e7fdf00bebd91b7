import Overlay.Proofs.Stack.Conservation

/-!
# What merging keeps

A merged tree has one key for each identity of its layers, just as a stacked one does, and the
entry of an identity is made from the contributions to it alone. So the order in which different
identities are first seen decides the order of the keys and nothing else.
-/

namespace Overlay

/-- There are no more leading trees than contributions. -/
theorem length_leadingTrees_le (cs : List Contribution) : (leadingTrees cs).length ≤ cs.length := by
  induction cs with
  | nil => exact Nat.le_refl 0
  | cons c rest ih =>
    unfold leadingTrees
    split
    · exact Nat.succ_le_succ ih
    · exact Nat.zero_le _

namespace OperatorTable

variable (table : OperatorTable)

/-- The entry of a group when layers are merged. -/
def mergedEntry (g : Group) : String × Value :=
  if 2 ≤ g.trees.length then g.merged table (table.mergeEntries g.trees.flatten)
  else g.stacked table

/-- Groups are the contributions to each identity, in first-seen order. -/
theorem ofEntries_eq_map (t : Tree) :
    Group.ofEntries table t = (table.identities t).eraseDups.map fun i => ⟨i, table.membersAt i t⟩ := by
  rw [Group.ofEntries, List.map_map]
  rfl

end OperatorTable

variable {table : OperatorTable}

namespace Group

variable {g : Group}

/-- The key of a member is read as the identity of the group. -/
theorem WellFormed.identityOf_raw (hg : g.WellFormed table) {c : Contribution}
    (hc : c ∈ g.members) : table.identityOf c.raw = g.identity := by
  rw [← hg.identity_eq c hc]
  exact congrArg Contribution.identity (hg.read c hc)

/-- The key under which a group is merged is read as its identity. -/
theorem WellFormed.identityOf_merged (hg : g.WellFormed table) (tree : Tree) :
    table.identityOf (g.merged table tree).1 = g.identity := by
  unfold merged
  split
  · obtain ⟨c, rest, hmembers⟩ := List.exists_cons_of_ne_nil hg.members_ne_nil
    have hfirst : g.firstRaw = c.raw := by rw [firstRaw, hmembers]; rfl
    rw [hfirst]
    exact hg.identityOf_raw (hmembers ▸ List.mem_cons_self)
  · exact (identity_parse_collectionKey hg).1

/-- The key of the entry that a group makes is read as its identity. -/
theorem WellFormed.identityOf_mergedEntry (hg : g.WellFormed table) :
    table.identityOf (table.mergedEntry g).1 = g.identity := by
  unfold OperatorTable.mergedEntry
  split
  · exact hg.identityOf_merged _
  · exact (ofEntry_stacked hg).1

end Group

namespace OperatorTable

variable {t u : Tree}

/-- The entries of distinct identities have the identities in order. -/
theorem identities_map_mergedEntry (t : Tree) :
    table.identities ((Group.ofEntries table t).map table.mergedEntry) =
      (table.identities t).eraseDups := by
  conv_rhs => rw [← List.map_id (table.identities t).eraseDups]
  rw [ofEntries_eq_map, identities, List.map_map, List.map_map]
  apply List.map_congr_left
  intro i hi
  exact (wellFormed_membersAt (List.mem_eraseDups.1 hi)).identityOf_mergedEntry

/-- A merged tree has one entry for each group of its entries. -/
theorem mergeEntries_eq_map (t : Tree) :
    table.mergeEntries t = (Group.ofEntries table t).map table.mergedEntry := by
  have hkeys : (((Group.ofEntries table t).map table.mergedEntry).map Prod.fst).Nodup := by
    refine List.Nodup.of_map table.identityOf ?_
    rw [List.map_map]
    change (table.identities _).Nodup
    rw [identities_map_mergedEntry]
    exact nodup_eraseDups _
  rw [mergeEntries_eq]
  exact Tree.ofEntries_of_nodup hkeys

/-- In a merged tree one entry contributes to each identity that occurs. -/
theorem membersAt_mergeEntries {i : Identity} (hi : i ∈ table.identities t) :
    table.membersAt i (table.mergeEntries t) =
      [Contribution.ofEntry table (table.mergedEntry ⟨i, table.membersAt i t⟩)] := by
  rw [mergeEntries_eq_map, ofEntries_eq_map, List.map_map]
  exact membersAt_map_of_mem (nodup_eraseDups _) (fun j hj =>
    (wellFormed_membersAt (List.mem_eraseDups.1 hj)).identityOf_mergedEntry)
    (List.mem_eraseDups.2 hi)

/-- The identities of a merged tree are those of its entries, each at its first place. -/
@[simp] theorem identities_mergeEntries (t : Tree) :
    table.identities (table.mergeEntries t) = (table.identities t).eraseDups := by
  rw [mergeEntries_eq_map, identities_map_mergedEntry]

/-- Lists with the same elements have them in some order each, once repetitions are left out. -/
theorem perm_eraseDups {α : Type} [DecidableEq α] {l l' : List α} (h : ∀ a, a ∈ l ↔ a ∈ l') :
    l.eraseDups.Perm l'.eraseDups := by
  rw [List.perm_ext_iff_of_nodup (nodup_eraseDups l) (nodup_eraseDups l')]
  intro a
  rw [List.mem_eraseDups, List.mem_eraseDups, h a]

/-- Trees with the same contributions to each identity have the same identities. -/
theorem mem_identities_iff_of_membersAt_eq (h : ∀ i, table.membersAt i t = table.membersAt i u)
    (i : Identity) : i ∈ table.identities t ↔ i ∈ table.identities u := by
  rw [← membersAt_ne_nil_iff, ← membersAt_ne_nil_iff, h i]

/-- Where identities are distinct, the order of the entries has no part in their contributions. -/
theorem membersAt_eq_of_perm (h : t.Perm u) (hnodup : (table.identities t).Nodup) (i : Identity) :
    table.membersAt i t = table.membersAt i u := by
  have hperm : (table.membersAt i t).Perm (table.membersAt i u) := (h.map _).filter _
  have hapart {v : Tree} (hv : (table.identities v).Nodup) :
      (table.membersAt i v).Pairwise fun c d => c.identity ≠ d.identity := by
    have hall : (v.map (Contribution.ofEntry table)).Pairwise fun c d => c.identity ≠ d.identity :=
      List.pairwise_map.2 (List.pairwise_map.1 hv)
    exact hall.filter _
  have hsame {v : Tree} {c : Contribution} (hc : c ∈ table.membersAt i v) : c.identity = i := by
    simpa using (List.mem_filter.1 hc).2
  have hnodup' : (table.identities u).Nodup := (h.map _).nodup_iff.1 hnodup
  -- Contributions that are apart and to one identity are one at most.
  exact List.Perm.eq_of_pairwise (fun c d hc hd hcd _ => absurd ((hsame hc).trans (hsame hd).symm) hcd)
    (hapart hnodup) (hapart hnodup') hperm

/-- Trees with the same contributions to each identity are merged into the same entries, up to
their order. -/
theorem perm_mergeEntries (h : ∀ i, table.membersAt i t = table.membersAt i u) :
    (table.mergeEntries t).Perm (table.mergeEntries u) := by
  have hgroups (i : Identity) : Group.mk i (table.membersAt i t) = ⟨i, table.membersAt i u⟩ := by
    rw [h i]
  rw [mergeEntries_eq_map, mergeEntries_eq_map, ofEntries_eq_map, ofEntries_eq_map]
  simp only [hgroups]
  exact ((perm_eraseDups (mem_identities_iff_of_membersAt_eq h)).map _).map _

end OperatorTable

end Overlay
