import Overlay.Proofs.Stack.Conservation
import Overlay.Reduce

/-!
# Stacking in parts

Layers may be stacked in parts: a stacked part can take the place of its layers among others. It
contributes to the same identities in the same order, and where it has collected operands under a
canonical key, they are spread again. So reduction cannot tell the two apart either.
-/

namespace Overlay

variable {table : OperatorTable}

/-- A group may be stacked in parts: some of its contributions can be replaced by the entry that
they make. -/
theorem Group.stacked_replace {i : Identity} {members : List Contribution}
    (h : Group.WellFormed table ⟨i, members⟩) (before after : List Contribution) :
    Group.stacked table
        ⟨i, before ++ [Contribution.ofEntry table (Group.stacked table ⟨i, members⟩)] ++ after⟩ =
      Group.stacked table ⟨i, before ++ members ++ after⟩ := by
  by_cases hmembers : 2 ≤ members.length
  · by_cases hothers : before = [] ∧ after = []
    · obtain ⟨rfl, rfl⟩ := hothers
      rw [List.nil_append, List.append_nil, List.nil_append, List.append_nil]
      rfl
    · have hlength : 1 ≤ before.length + after.length := by
        by_contra hnone
        exact hothers ⟨List.length_eq_zero_iff.1 (by omega), List.length_eq_zero_iff.1 (by omega)⟩
      have hoperands := (ofEntry_stacked h).2
      generalize Contribution.ofEntry table (Group.stacked table ⟨i, members⟩) = c at hoperands ⊢
      rw [stacked_of_two_le (by simp only [List.length_append, List.length_singleton]; omega),
        stacked_of_two_le (by simp only [List.length_append]; omega)]
      simp only [operands, collectionKey, List.flatMap_append, List.flatMap_singleton] at hoperands ⊢
      rw [hoperands]
  · have hpos : 0 < members.length := List.length_pos_iff.2 h.members_ne_nil
    obtain ⟨c, rfl⟩ := List.length_eq_one_iff.1 (by omega : members.length = 1)
    have hread : Contribution.ofEntry table (Group.stacked table ⟨i, [c]⟩) = c :=
      h.read c (List.mem_singleton_self c)
    rw [hread]

namespace OperatorTable

/-- A stacked part has the identities of its layers, among those of other entries. -/
theorem eraseDups_identities_stack (below above : Tree) (part : List Tree) :
    (table.identities (below ++ table.stack part ++ above)).eraseDups =
      (table.identities (below ++ part.flatten ++ above)).eraseDups := by
  simp only [identities_append, identities_stack]
  rw [← eraseDups_eraseDups_append, eraseDups_append_eraseDups, eraseDups_eraseDups_append]

/-- A stacked part makes the same entries as its layers, among other entries. -/
theorem entryAt_stack (below above : Tree) (part : List Tree) (i : Identity) :
    table.entryAt (below ++ table.stack part ++ above) i =
      table.entryAt (below ++ part.flatten ++ above) i := by
  simp only [entryAt, membersAt_append]
  by_cases hi : i ∈ table.identities part.flatten
  · rw [membersAt_stack_of_mem table part hi]
    exact Group.stacked_replace (wellFormed_membersAt hi) _ _
  · rw [membersAt_stack_of_not_mem table part hi, membersAt_eq_nil hi]

/-- Layers may be stacked in parts. -/
theorem stack_append_stack (below part above : List Tree) :
    table.stack (below ++ [table.stack part] ++ above) = table.stack (below ++ part ++ above) := by
  have hpart : (below ++ [table.stack part] ++ above).flatten =
      below.flatten ++ table.stack part ++ above.flatten := by simp
  have hlayers : (below ++ part ++ above).flatten =
      below.flatten ++ part.flatten ++ above.flatten := by simp
  calc
    _ = (table.identities (below.flatten ++ table.stack part ++ above.flatten)).eraseDups.map
          (table.entryAt (below.flatten ++ table.stack part ++ above.flatten)) := by
        rw [stack_eq table (below ++ [table.stack part] ++ above), hpart]
    _ = (table.identities (below.flatten ++ part.flatten ++ above.flatten)).eraseDups.map
          (table.entryAt (below.flatten ++ part.flatten ++ above.flatten)) := by
        rw [eraseDups_identities_stack]
        exact List.map_congr_left fun i _ => entryAt_stack _ _ _ i
    _ = table.stack (below ++ part ++ above) := by rw [stack_eq, hlayers]

/-- Stacking is associative, and so is the reduction of layers in what it makes of them: a stacked
part gives the same ordered trees as its layers do. -/
theorem stack_associative (table : OperatorTable) (below part above : List Tree) :
    table.stack (below ++ [table.stack part] ++ above) = table.stack (below ++ part ++ above) ∧
      table.reduceLayers (below ++ [table.stack part] ++ above) =
        table.reduceLayers (below ++ part ++ above) := by
  have hstack : table.stack (below ++ [table.stack part] ++ above) =
      table.stack (below ++ part ++ above) := stack_append_stack below part above
  exact ⟨hstack, by rw [reduceLayers, reduceLayers, hstack]⟩

end OperatorTable

end Overlay
