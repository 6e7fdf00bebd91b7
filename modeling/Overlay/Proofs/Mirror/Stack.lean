import Overlay.Proofs.Mirror.Basic
import Overlay.Proofs.Stack.Merging

/-!
# Stacking and merging mirrored layers

Stacking and merging read keys, join operands, and look at a value to see whether a plain key assigns a
tree. A mirrored tree has the same keys, mirrored operands, and trees where the first has trees. So it has
the same identities with mirrored operands, and what is stacked or merged from it is mirrored again; the
keys that are written on the way are apart from the custom operators of the table.
-/

namespace Overlay

/-- The contribution of an entry that mentions no custom operator of a table, and that of its mirror. -/
structure Contribution.Mirrored (table : OperatorTable) (h : Value → Value) (c d : Contribution) :
    Prop where
  raw_eq : d.raw = c.raw
  key_eq : d.key = c.key
  read : c.key = Key.parse .empty c.raw
  unmentioned : table.Unmentioned c.raw.toList
  value : Value.Mirrored table h c.key.spread c.value d.value

variable {table : OperatorTable} {h : Value → Value}

/-- Entries are taken apart alike, since the key mentions no custom operator of the table. -/
theorem EntryMirrored.ofEntry {e f : String × Value} (hef : EntryMirrored table h e f) :
    Contribution.Mirrored table h (Contribution.ofEntry table e) (Contribution.ofEntry .empty f) := by
  have hread : Key.parse table e.1 = Key.parse .empty e.1 := Key.parse_of_unmentioned hef.unmentioned
  refine ⟨hef.key_eq, ?_, hread, hef.unmentioned, ?_⟩
  · change Key.parse .empty f.1 = Key.parse table e.1
    rw [hef.key_eq, hread]
  · change Value.Mirrored table h (Key.parse table e.1).spread e.2 f.2
    rw [hread]
    exact hef.value

/-- An entry that is written for an identity apart from the table is mirrored by the one that is written
without the table. -/
theorem entryMirrored_encode {k : Key} {v w : Value} (hk : k.identity.ApartFrom table)
    (hvw : Value.Mirrored table h k.spread v w) :
    EntryMirrored table h (k.encode table, v) (k.encode .empty, w) := by
  have hspread : (Key.parse .empty (k.encode .empty)).spread = k.spread :=
    (Key.identity_parse_encode hk.fits).2
  rw [Key.encode_of_apartFrom hk]
  exact ⟨rfl, Key.unmentioned_encode hk, by rwa [hspread]⟩

namespace Contribution.Mirrored

variable {c d : Contribution}

/-- Mirrored contributions are to the same identity. -/
theorem identity_eq (hcd : Contribution.Mirrored table h c d) : d.identity = c.identity :=
  congrArg Key.identity hcd.key_eq

/-- The operands of a contribution are mirrored. -/
theorem operands (hcd : Contribution.Mirrored table h c d) :
    OperandsMirrored table h c.operands d.operands := by
  rw [Contribution.operands, Contribution.operands, hcd.key_eq]
  exact hcd.value.ofValue

/-- A contribution assigns a tree just where its mirror does. -/
theorem assignedTree? (hcd : Contribution.Mirrored table h c d) :
    Option.Rel (Tree.Mirrored table h) c.assignedTree? d.assignedTree? := by
  rw [Contribution.assignedTree?, Contribution.assignedTree?, hcd.key_eq]
  split
  · exact hcd.value.tree?
  · exact .none

/-- The entry of a contribution is mirrored. -/
theorem entry (hcd : Contribution.Mirrored table h c d) :
    EntryMirrored table h (c.raw, c.value) (d.raw, d.value) :=
  ⟨hcd.raw_eq, hcd.unmentioned, hcd.read ▸ hcd.value⟩

end Contribution.Mirrored

section Groups

variable {cs ds : List Contribution} (hcs : List.Forall₂ (Contribution.Mirrored table h) cs ds)

include hcs

/-- The operands of contributions as one list are mirrored. -/
theorem mirrored_operands :
    OperandsMirrored table h (cs.flatMap Contribution.operands) (ds.flatMap Contribution.operands) :=
  List.rel_flatMap hcs fun _ _ hcd => hcd.operands

/-- The trees that contributions begin with are mirrored. -/
theorem mirrored_leadingTrees :
    List.Forall₂ (Tree.Mirrored table h) (leadingTrees cs) (leadingTrees ds) := by
  induction hcs with
  | nil => exact .nil
  | @cons c d _ _ hcd _ ih =>
    have htree := hcd.assignedTree?
    rw [leadingTrees, leadingTrees]
    generalize c.assignedTree? = first, d.assignedTree? = first' at htree
    cases htree with
    | none => exact .nil
    | some htu => exact .cons htu ih

variable {i : Identity} (hi : i.ApartFrom table)

include hi

/-- A stacked group is mirrored. -/
theorem mirrored_stacked :
    EntryMirrored table h (Group.stacked table ⟨i, cs⟩) (Group.stacked .empty ⟨i, ds⟩) := by
  have hcollection : EntryMirrored table h
      (i.collection.encode table, .array (cs.flatMap Contribution.operands))
      (i.collection.encode .empty, .array (ds.flatMap Contribution.operands)) :=
    entryMirrored_encode hi (mirrored_collection (mirrored_operands hcs))
  cases hcs with
  | nil => exact hcollection
  | cons hcd hrest =>
    cases hrest with
    | nil => exact hcd.entry
    | cons => exact hcollection

/-- A group that begins with trees is mirrored if the trees are merged into mirrored ones. -/
theorem mirrored_merged {t u : Tree} (htu : Tree.Mirrored table h t u) (hsome : cs ≠ []) :
    EntryMirrored table h (Group.merged table ⟨i, cs⟩ t) (Group.merged .empty ⟨i, ds⟩ u) := by
  have htrees := mirrored_leadingTrees hcs
  -- The key of the first tree stays if nothing follows the trees, or else a collection is written.
  have hothers : List.Forall₂ (Contribution.Mirrored table h) (Group.others ⟨i, cs⟩)
      (Group.others ⟨i, ds⟩) := by
    have hlength : (leadingTrees cs).length = (leadingTrees ds).length := htrees.length_eq
    rw [Group.others, Group.others, Group.trees, Group.trees, hlength]
    exact List.forall₂_drop _ hcs
  unfold Group.merged
  generalize Group.others ⟨i, cs⟩ = others, Group.others ⟨i, ds⟩ = others' at hothers
  cases hothers with
  | nil =>
    cases hcs with
    | nil => exact absurd rfl hsome
    | cons hcd _ => exact ⟨hcd.raw_eq, hcd.unmentioned, mirrored_tree_iff.2 htu⟩
  | cons hcd hrest =>
    have htree : Value.Mirrored table h false (.tree t) (.tree u) := mirrored_tree_iff.2 htu
    exact entryMirrored_encode hi
      (mirrored_collection (.cons htree (mirrored_operands (.cons hcd hrest))))

end Groups

namespace OperatorTable

section Trees

variable {t u : Tree} (htu : Tree.Mirrored table h t u)

include htu

/-- The contributions of mirrored trees are mirrored. -/
theorem mirrored_contributions :
    List.Forall₂ (Contribution.Mirrored table h) (t.map (Contribution.ofEntry table))
      (u.map (Contribution.ofEntry empty)) :=
  List.rel_map (fun _ _ hef => hef.ofEntry) (mirrored_iff_forall₂.1 htu)

/-- Mirrored trees have the same identities. -/
theorem identities_of_mirrored : empty.identities u = table.identities t := by
  have hidentities := List.rel_map (R := Contribution.Mirrored table h) (P := Eq)
    (fun _ _ hcd => hcd.identity_eq.symm) (mirrored_contributions htu)
  rw [List.forall₂_eq_eq_eq, List.map_map, List.map_map] at hidentities
  exact hidentities.symm

/-- The identities of a mirrored tree are apart from the table. -/
theorem apartFrom_of_mem_identities {i : Identity} (hi : i ∈ table.identities t) :
    i.ApartFrom table := by
  obtain ⟨e, he, rfl⟩ := List.mem_map.1 hi
  have hkey : table.Unmentioned e.1.toList := htu.unmentioned e.1 (mem_allKeys.2 ⟨e, he, .inl rfl⟩)
  rw [identityOf, Key.parse_of_unmentioned hkey]
  exact Key.apartFrom_parse hkey

/-- The contributions to an identity are mirrored. -/
theorem mirrored_membersAt (i : Identity) :
    List.Forall₂ (Contribution.Mirrored table h) (table.membersAt i t) (empty.membersAt i u) := by
  refine List.rel_filter (fun c d hcd => ?_) (mirrored_contributions htu)
  change c.identity == i ↔ d.identity == i
  rw [hcd.identity_eq]

/-- The operands of an identity are mirrored. -/
theorem mirrored_operandsAt (i : Identity) :
    OperandsMirrored table h (table.operandsAt i t) (empty.operandsAt i u) :=
  mirrored_operands (mirrored_membersAt htu i)

end Trees

/-- Mirrored layers as one tree are mirrored. -/
theorem mirrored_flatten {layers layers' : List Tree}
    (hlayers : List.Forall₂ (Tree.Mirrored table h) layers layers') :
    Tree.Mirrored table h layers.flatten layers'.flatten :=
  mirrored_iff_forall₂.2 (List.rel_flatten (hlayers.imp fun _ _ htu => mirrored_iff_forall₂.1 htu))

/-- Stacked layers are mirrored. -/
theorem mirrored_stack {layers layers' : List Tree}
    (hlayers : List.Forall₂ (Tree.Mirrored table h) layers layers') :
    Tree.Mirrored table h (table.stack layers) (empty.stack layers') := by
  have hflatten := mirrored_flatten hlayers
  rw [mirrored_iff_forall₂, stack_eq, stack_eq, identities_of_mirrored hflatten,
    List.forall₂_map_left_iff, List.forall₂_map_right_iff, List.forall₂_same]
  intro i hi
  exact mirrored_stacked (mirrored_membersAt hflatten i)
    (apartFrom_of_mem_identities hflatten (List.mem_eraseDups.1 hi))

/-- The entry of a merged group is mirrored, if the trees it begins with are merged into mirrored ones. -/
theorem mirrored_mergedEntry {i : Identity} (hi : i.ApartFrom table) {cs ds : List Contribution}
    (hcs : List.Forall₂ (Contribution.Mirrored table h) cs ds)
    (hmerge : 2 ≤ (leadingTrees cs).length → Tree.Mirrored table h
      (table.mergeEntries (leadingTrees cs).flatten) (empty.mergeEntries (leadingTrees ds).flatten)) :
    EntryMirrored table h (table.mergedEntry ⟨i, cs⟩) (empty.mergedEntry ⟨i, ds⟩) := by
  have hlength : (Group.trees ⟨i, ds⟩).length = (Group.trees ⟨i, cs⟩).length :=
    (mirrored_leadingTrees hcs).length_eq.symm
  unfold mergedEntry
  by_cases htwo : 2 ≤ (Group.trees ⟨i, cs⟩).length
  · have hsome : cs ≠ [] := by
      rintro rfl
      exact Nat.not_succ_le_zero 1 htwo
    rw [if_pos htwo, if_pos (hlength ▸ htwo)]
    exact mirrored_merged hcs hi (hmerge htwo) hsome
  · rw [if_neg htwo, if_neg (hlength ▸ htwo)]
    exact mirrored_stacked hcs hi

/-- Merged entries are mirrored. -/
theorem mirrored_mergeEntries {t u : Tree} (htu : Tree.Mirrored table h t u) :
    Tree.Mirrored table h (table.mergeEntries t) (empty.mergeEntries u) := by
  induction hn : Tree.weight t using Nat.strongRecOn generalizing t u with
  | ind n ih =>
    subst hn
    rw [mirrored_iff_forall₂, mergeEntries_eq_map, mergeEntries_eq_map, ofEntries_eq_map,
      ofEntries_eq_map, identities_of_mirrored htu, List.map_map, List.map_map,
      List.forall₂_map_left_iff, List.forall₂_map_right_iff, List.forall₂_same]
    intro i hi
    have hmembers := mirrored_membersAt htu i
    refine mirrored_mergedEntry (apartFrom_of_mem_identities htu (List.mem_eraseDups.1 hi)) hmembers
      fun htwo => ?_
    have hg : Group.mk i (table.membersAt i t) ∈ Group.ofEntries table t := by
      rw [ofEntries_eq_map]
      exact List.mem_map_of_mem hi
    have hsome : leadingTrees (table.membersAt i t) ≠ [] := List.ne_nil_of_length_pos (by omega)
    have hlt := Group.weight_trees_lt hg hsome
    exact ih _ hlt (mirrored_flatten (mirrored_leadingTrees hmembers)) rfl

/-- Merged layers are mirrored. -/
theorem mirrored_merge {layers layers' : List Tree}
    (hlayers : List.Forall₂ (Tree.Mirrored table h) layers layers') :
    Tree.Mirrored table h (table.merge layers) (empty.merge layers') :=
  mirrored_mergeEntries (mirrored_flatten hlayers)

end OperatorTable

end Overlay
