import Overlay.Key.Printer

/-!
# Contributions

Each entry of a layer contributes operands to the identity of its key. The contributions to one
identity form a group, and groups come in the order in which their identities are first seen.

The trees that a group begins with weigh less than the entries that were grouped, so merging them
in turn comes to an end.
-/

namespace Overlay

/-- One entry of a layer with its key taken apart. -/
structure Contribution where
  raw : String
  key : Key
  value : Value

namespace Contribution

/-- The contribution of an entry. -/
def ofEntry (table : OperatorTable) (entry : String × Value) : Contribution :=
  ⟨entry.1, Key.parse table entry.1, entry.2⟩

/-- The identity that is contributed to. -/
def identity (c : Contribution) : Identity := c.key.identity

/-- The operands that are contributed. -/
def operands (c : Contribution) : Operands := Operands.ofValue c.key.spread c.value

/-- The tree that is assigned, if the key is plain and its value a tree. -/
def assignedTree? (c : Contribution) : Option Tree :=
  if c.key.isPlain then c.value.tree? else none

/-- The weight of the entry. -/
def weight (c : Contribution) : Nat := 1 + c.value.weight

/-- An assigned tree weighs less than its entry. -/
theorem weight_assignedTree? {c : Contribution} {t : Tree} (h : c.assignedTree? = some t) :
    t.weight < c.weight := by
  unfold assignedTree? at h
  split at h
  · cases hv : c.value <;> simp [hv, Value.tree?] at h
    subst h
    simp only [weight, hv, Value.weight]
    omega
  · simp at h

/-- The weight of a list of entries. -/
@[simp] def totalWeight : List Contribution → Nat
  | [] => 0
  | c :: rest => c.weight + totalWeight rest

/-- Leaving out contributions adds no weight. -/
theorem totalWeight_filter_le (p : Contribution → Bool) (cs : List Contribution) :
    totalWeight (cs.filter p) ≤ totalWeight cs := by
  induction cs with
  | nil => simp
  | cons c rest ih =>
    simp only [List.filter_cons]
    split <;> simp only [totalWeight] <;> omega

/-- The weights of entries sum up to the weight of the tree they form. -/
theorem totalWeight_ofEntry (table : OperatorTable) (entries : List (String × Value)) :
    totalWeight (entries.map (ofEntry table)) = Tree.weight entries := by
  induction entries with
  | nil => rfl
  | cons e rest ih =>
    obtain ⟨k, v⟩ := e
    simp only [List.map_cons, totalWeight, ih, Tree.weight, weight, ofEntry]

end Contribution

/-- The assigned trees that come before any other contribution. -/
def leadingTrees : List Contribution → List Tree
  | [] => []
  | c :: rest =>
    match c.assignedTree? with
    | some t => t :: leadingTrees rest
    | none => []

@[simp] theorem leadingTrees_nil : leadingTrees [] = [] := rfl

/-- A contribution that is alone leads if it assigns a tree. -/
@[simp] theorem leadingTrees_singleton (c : Contribution) :
    leadingTrees [c] = c.assignedTree?.toList := by
  unfold leadingTrees
  cases c.assignedTree? <;> rfl

/-- Leading trees weigh no more than their entries. -/
theorem weight_leadingTrees_le (cs : List Contribution) :
    Tree.weight (leadingTrees cs).flatten ≤ Contribution.totalWeight cs := by
  induction cs with
  | nil => simp
  | cons c rest ih =>
    simp only [leadingTrees, Contribution.totalWeight]
    split
    · next t ht =>
      have := Contribution.weight_assignedTree? ht
      rw [List.flatten_cons, Tree.weight_append]
      omega
    · simp

/-- Leading trees weigh less than their entries. -/
theorem weight_leadingTrees_lt {cs : List Contribution} (h : leadingTrees cs ≠ []) :
    Tree.weight (leadingTrees cs).flatten < Contribution.totalWeight cs := by
  cases cs with
  | nil => simp at h
  | cons c rest =>
    simp only [leadingTrees, Contribution.totalWeight] at h ⊢
    split
    · next t ht =>
      have := Contribution.weight_assignedTree? ht
      have := weight_leadingTrees_le rest
      rw [List.flatten_cons, Tree.weight_append]
      omega
    · next hn => simp [hn] at h

/-- The contributions to one identity, in order. -/
structure Group where
  identity : Identity
  members : List Contribution

namespace Group

/-- The groups of entries, in the order in which their identities are first seen. -/
def ofEntries (table : OperatorTable) (entries : List (String × Value)) : List Group :=
  let cs := entries.map (Contribution.ofEntry table)
  (cs.map Contribution.identity).eraseDups.map fun i =>
    ⟨i, cs.filter fun c => c.identity = i⟩

/-- The operands of an identity. -/
def operands (g : Group) : Operands := g.members.flatMap Contribution.operands

/-- The key as it was first written. -/
def firstRaw (g : Group) : String := (g.members.head?.map Contribution.raw).getD ""

/-- The canonical key that collects the operands of an identity. -/
def collectionKey (table : OperatorTable) (g : Group) : String :=
  g.identity.collection.encode table

/-- The trees assigned before any other contribution. -/
def trees (g : Group) : List Tree := leadingTrees g.members

/-- The contributions after the leading trees. -/
def others (g : Group) : List Contribution := g.members.drop g.trees.length

/-- The leading trees of a group weigh less than the entries that were grouped. -/
theorem weight_trees_lt {table : OperatorTable} {entries : List (String × Value)} {g : Group}
    (hg : g ∈ ofEntries table entries) (h : g.trees ≠ []) :
    Tree.weight g.trees.flatten < Tree.weight entries := by
  simp only [ofEntries, List.mem_map] at hg
  obtain ⟨i, -, rfl⟩ := hg
  refine Nat.lt_of_lt_of_le (weight_leadingTrees_lt h) ?_
  rw [← Contribution.totalWeight_ofEntry table entries]
  exact Contribution.totalWeight_filter_le _ _

end Group

end Overlay
