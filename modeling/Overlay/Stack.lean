import Overlay.Contribution
import Overlay.FirstSeen

/-!
# Stacking and merging layers

Stacking writes layers over one another without applying any operator. An identity that one
entry contributes to keeps its key and value as they are; several entries become a collection of
all operands under one canonical key. Each identity has a slot that takes up its contributions as
they come.

Merging differs only where plain trees meet: the trees that come first at a plain key are merged
in turn, and just what follows them is collected.
-/

namespace Overlay

/-- What a slot holds: one contribution as it is, or the operands of several. -/
inductive Holding where
  | single (c : Contribution)
  | collection (operands : Operands)

/-- The slot of an identity while layers are stacked. -/
structure Slot where
  identity : Identity
  holding : Holding

namespace Slot

/-- The slot of an identity that is first seen. -/
def first (c : Contribution) : Slot := ⟨c.identity, .single c⟩

/-- Take up one more contribution. -/
def absorb (s : Slot) (c : Contribution) : Slot :=
  match s.holding with
  | .single d => ⟨s.identity, .collection (d.operands ++ c.operands)⟩
  | .collection operands => ⟨s.identity, .collection (operands ++ c.operands)⟩

/-- The slots of contributions, in the order in which their identities are first seen. -/
def ofContributions (cs : List Contribution) : List Slot :=
  cs.foldl
    (fun slots c => amend (fun s => s.identity == c.identity) (fun s => s.absorb c) (first c) slots)
    []

/-- The entry of a slot: its only contribution as it is, or the collection of all operands. -/
def entry (table : OperatorTable) (s : Slot) : String × Value :=
  match s.holding with
  | .single c => (c.raw, c.value)
  | .collection operands => (s.identity.collection.encode table, .array operands)

end Slot

namespace Group

/-- The entry of a group as a whole: the only contribution as it is, or the collection of all. -/
def stacked (table : OperatorTable) (g : Group) : String × Value :=
  match g.members with
  | [c] => (c.raw, c.value)
  | _ => (g.collectionKey table, .array g.operands)

/-- The entry of a group whose leading trees make up one tree: the tree at the first key, or
the collection of the tree and the operands of all other contributions. -/
def merged (table : OperatorTable) (g : Group) (tree : Tree) : String × Value :=
  match g.others with
  | [] => (g.firstRaw, .tree tree)
  | others =>
    (g.collectionKey table, .array (.tree tree :: others.flatMap Contribution.operands))

end Group

namespace OperatorTable

/-- Stack layers, the lowest first. -/
def stack (table : OperatorTable) (layers : List Tree) : Tree :=
  Tree.ofEntries
    ((Slot.ofContributions (layers.flatten.map (Contribution.ofEntry table))).map
      (Slot.entry table))

/-- Merge entries: where a group begins with several trees, these are merged in turn. -/
def mergeEntries (table : OperatorTable) (entries : List (String × Value)) : Tree :=
  Tree.ofEntries ((Group.ofEntries table entries).attach.map fun ⟨g, _⟩ =>
    if _ : 2 ≤ g.trees.length then g.merged table (mergeEntries table g.trees.flatten)
    else g.stacked table)
termination_by Tree.weight entries
decreasing_by exact Group.weight_trees_lt ‹_› (List.ne_nil_of_length_pos (by omega))

/-- Merge layers, the lowest first. -/
def merge (table : OperatorTable) (layers : List Tree) : Tree :=
  table.mergeEntries layers.flatten

/-- Merging goes group by group, and merges anew only where a group begins with several trees. -/
theorem mergeEntries_eq (table : OperatorTable) (entries : List (String × Value)) :
    table.mergeEntries entries =
      Tree.ofEntries ((Group.ofEntries table entries).map fun g =>
        if 2 ≤ g.trees.length then g.merged table (table.mergeEntries g.trees.flatten)
        else g.stacked table) := by
  rw [mergeEntries]
  simp only [dite_eq_ite]
  rw [← List.attach_map_subtype_val (Group.ofEntries table entries), List.map_map,
    List.attach_map_subtype_val]
  rfl

end OperatorTable

end Overlay
