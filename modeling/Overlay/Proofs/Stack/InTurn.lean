import Mathlib.Data.List.TakeWhile
import Overlay.Proofs.Stack.Merging

/-!
# Merging in turn

Trees that meet at a plain key are merged all at once, and this is the same as merging them one after
the other, each with what the trees below it make up: a merged part can take the place of its layers at
the bottom of others. So a slot may merge each tree with the one that it holds as soon as it takes it
up, and it turns into a collection with the first contribution of another kind. Everywhere else a merged
tree has the entries of a stacked one.
-/

namespace Overlay

/-- Test for a contribution that assigns a tree. -/
@[simp] def Contribution.assignsTree (c : Contribution) : Bool := c.assignedTree?.isSome

namespace Contribution

variable {c : Contribution} {t : Tree}

/-- A contribution that assigns a tree has the tree as its value and is not spread. -/
theorem assignedTree?_eq_some_iff :
    c.assignedTree? = some t ↔ c.key.isPlain = true ∧ c.value = .tree t := by
  unfold assignedTree?
  cases c.value <;> simp [Value.tree?]

/-- The only operand of an assigned tree is the tree. -/
theorem operands_of_assignedTree? (h : c.assignedTree? = some t) : c.operands = [.tree t] := by
  obtain ⟨-, hvalue⟩ := assignedTree?_eq_some_iff.1 h
  rw [operands, hvalue]
  cases c.key.spread <;> rfl

/-- A contribution that assigns a tree stays the same with this tree as its value. -/
theorem with_assignedTree? (h : c.assignedTree? = some t) : { c with value := .tree t } = c := by
  obtain ⟨-, hvalue⟩ := assignedTree?_eq_some_iff.1 h
  rw [← hvalue]

end Contribution

/-- The leading trees are the trees of the contributions that come before any of another kind. -/
theorem leadingTrees_eq (cs : List Contribution) :
    leadingTrees cs = (cs.takeWhile Contribution.assignsTree).filterMap Contribution.assignedTree? := by
  induction cs with
  | nil => rfl
  | cons c rest ih =>
    rw [leadingTrees]
    cases hc : c.assignedTree? with
    | none => simp [hc]
    | some t => simp [hc, ih]

/-- Behind the leading trees comes the first contribution of another kind. -/
theorem drop_leadingTrees (cs : List Contribution) :
    cs.drop (leadingTrees cs).length = cs.dropWhile Contribution.assignsTree := by
  induction cs with
  | nil => rfl
  | cons c rest ih =>
    rw [leadingTrees]
    cases hc : c.assignedTree? with
    | none => simp [hc]
    | some t => simp [hc, ih]

/-- Among trees alone all contributions are leading trees. -/
theorem length_leadingTrees_of_all {cs : List Contribution}
    (h : cs.dropWhile Contribution.assignsTree = []) : (leadingTrees cs).length = cs.length := by
  have hle := drop_leadingTrees cs
  rw [h, List.drop_eq_nil_iff] at hle
  exact Nat.le_antisymm (length_leadingTrees_le cs) hle

/-- Behind trees alone the leading trees go on. -/
theorem leadingTrees_append_of_all {cs : List Contribution}
    (h : cs.dropWhile Contribution.assignsTree = []) (ds : List Contribution) :
    leadingTrees (cs ++ ds) = leadingTrees cs ++ leadingTrees ds := by
  rw [List.dropWhile_eq_nil_iff] at h
  rw [leadingTrees_eq, leadingTrees_eq cs, leadingTrees_eq ds, List.takeWhile_append_of_pos h,
    List.takeWhile_eq_self_iff.2 h, List.filterMap_append]

/-- The first contribution of another kind ends the leading trees. -/
theorem leadingTrees_append_of_other {cs : List Contribution}
    (h : cs.dropWhile Contribution.assignsTree ≠ []) (ds : List Contribution) :
    leadingTrees (cs ++ ds) = leadingTrees cs := by
  induction cs with
  | nil => exact absurd rfl h
  | cons c rest ih =>
    rw [List.cons_append, leadingTrees, leadingTrees]
    cases hc : c.assignedTree? with
    | none => rfl
    | some t =>
      have hrest : rest.dropWhile Contribution.assignsTree ≠ [] := by
        simpa [hc] using h
      simp only [ih hrest]

/-- What comes behind the leading trees goes on with what is added. -/
theorem dropWhile_append_of_other {cs : List Contribution}
    (h : cs.dropWhile Contribution.assignsTree ≠ []) (ds : List Contribution) :
    (cs ++ ds).dropWhile Contribution.assignsTree = cs.dropWhile Contribution.assignsTree ++ ds := by
  rw [List.dropWhile_append, if_neg (by rwa [List.isEmpty_iff])]

namespace Group

variable (g : Group)

/-- The other contributions are those from the first on that assigns no tree. -/
theorem others_eq : g.others = g.members.dropWhile Contribution.assignsTree :=
  drop_leadingTrees g.members

variable {g} (table : OperatorTable)

/-- Trees alone are merged under the first key. -/
theorem merged_of_all (h : g.members.dropWhile Contribution.assignsTree = []) (t : Tree) :
    g.merged table t = (g.firstRaw, .tree t) := by
  rw [merged, others_eq, h]

/-- Trees with something behind them are merged into one operand of a collection. -/
theorem merged_of_other (h : g.members.dropWhile Contribution.assignsTree ≠ []) (t : Tree) :
    g.merged table t = (g.collectionKey table, .array
      (.tree t :: (g.members.dropWhile Contribution.assignsTree).flatMap Contribution.operands)) := by
  obtain ⟨c, rest, hcons⟩ := List.exists_cons_of_ne_nil h
  rw [merged, others_eq, hcons]

end Group

namespace OperatorTable

variable (table : OperatorTable)

/-- Merge trees in turn, each with what the trees below it make up. -/
def mergeInTurn (lowest : Tree) (trees : List Tree) : Tree :=
  trees.foldl (fun lower upper => table.merge [lower, upper]) lowest

/-- A last tree is merged with what all others make up. -/
theorem mergeInTurn_concat (lowest : Tree) (trees : List Tree) (upper : Tree) :
    table.mergeInTurn lowest (trees ++ [upper]) =
      table.merge [table.mergeInTurn lowest trees, upper] := List.foldl_concat ..

end OperatorTable

/-- The entry of a group when trees are merged in turn. Where no tree comes first, it is the entry of
stacking. Otherwise the trees that come first make up one tree, at the first key if nothing follows them,
and else in front of the operands of what follows. -/
def Group.inTurn (table : OperatorTable) (g : Group) : String × Value :=
  match (g.members.takeWhile Contribution.assignsTree).filterMap Contribution.assignedTree?,
      g.members.dropWhile Contribution.assignsTree with
  | [], _ => g.stacked table
  | lowest :: trees, [] => (g.firstRaw, .tree (table.mergeInTurn lowest trees))
  | lowest :: trees, others =>
    (g.identity.collection.encode table,
      .array (.tree (table.mergeInTurn lowest trees) :: others.flatMap Contribution.operands))

variable {table : OperatorTable}

namespace Group

variable {g : Group}

/-- Where no tree comes first, there is nothing to merge. -/
theorem inTurn_of_none (h : leadingTrees g.members = []) : g.inTurn table = g.stacked table := by
  rw [inTurn, ← leadingTrees_eq, h]

/-- What the trees that come first make up in turn is the tree that is merged. -/
theorem inTurn_of_trees {lowest : Tree} {trees : List Tree}
    (h : leadingTrees g.members = lowest :: trees) :
    g.inTurn table = g.merged table (table.mergeInTurn lowest trees) := by
  rw [inTurn, ← leadingTrees_eq, h]
  by_cases hall : g.members.dropWhile Contribution.assignsTree = []
  · rw [merged_of_all table hall]
    simp only [hall]
  · rw [merged_of_other table hall]
    obtain ⟨c, rest, hcons⟩ := List.exists_cons_of_ne_nil hall
    simp only [hcons, collectionKey]

end Group

namespace OperatorTable

section Replacing

variable {i : Identity} {cs : List Contribution}

/-- Where not all of several contributions are trees, they make a collection, and what follows adds its
operands to it. -/
theorem exists_mergedEntry_append (hmany : 2 ≤ cs.length)
    (hother : cs.dropWhile Contribution.assignsTree ≠ []) :
    ∃ operands, ∀ ds, table.mergedEntry ⟨i, cs ++ ds⟩ =
      (i.collection.encode table, .array (operands ++ ds.flatMap Contribution.operands)) := by
  have hleading (ds : List Contribution) : (Group.mk i (cs ++ ds)).trees = leadingTrees cs :=
    leadingTrees_append_of_other hother ds
  by_cases htrees : 2 ≤ (leadingTrees cs).length
  · refine ⟨.tree (table.mergeEntries (leadingTrees cs).flatten) ::
      (cs.dropWhile Contribution.assignsTree).flatMap Contribution.operands, fun ds => ?_⟩
    have hother' : (cs ++ ds).dropWhile Contribution.assignsTree ≠ [] := by
      rw [dropWhile_append_of_other hother]
      exact List.append_ne_nil_of_left_ne_nil hother ds
    rw [mergedEntry, hleading, if_pos htrees, Group.merged_of_other table hother',
      dropWhile_append_of_other hother, List.flatMap_append, List.cons_append]
    rfl
  · refine ⟨cs.flatMap Contribution.operands, fun ds => ?_⟩
    have hlength : 2 ≤ (Group.mk i (cs ++ ds)).members.length := by
      rw [List.length_append]
      omega
    rw [mergedEntry, hleading, if_neg htrees, Group.stacked_of_two_le hlength]
    simp [Group.collectionKey, Group.operands]

/-- The first of several trees gives its key to the tree that they make up. -/
theorem mergedEntry_of_all {c : Contribution} {rest : List Contribution}
    (hall : (c :: rest).dropWhile Contribution.assignsTree = [])
    (htrees : 2 ≤ (leadingTrees (c :: rest)).length) :
    table.mergedEntry ⟨i, c :: rest⟩ =
      (c.raw, .tree (table.mergeEntries (leadingTrees (c :: rest)).flatten)) := by
  have hleading : (Group.mk i (c :: rest)).trees = leadingTrees (c :: rest) := rfl
  rw [mergedEntry, hleading, if_pos htrees, Group.merged_of_all table hall]
  rfl

/-- A single tree at the front is taken as it is. -/
theorem mergedEntry_of_single {t : Tree} (htrees : leadingTrees cs = [t]) :
    table.mergedEntry ⟨i, cs⟩ = Group.merged table ⟨i, cs⟩ t := by
  have hleading : (Group.mk i cs).trees = [t] := htrees
  have hfew : ¬2 ≤ (Group.mk i cs).trees.length := by simp [hleading]
  rw [mergedEntry, if_neg hfew]
  cases cs with
  | nil => simp at htrees
  | cons c rest =>
    have hc : c.assignedTree? = some t := by
      cases hc : c.assignedTree? <;> simp [leadingTrees, hc] at htrees
      rw [htrees.1]
    have hothers : (Group.mk i (c :: rest)).others = rest := by rw [Group.others, hleading]; rfl
    rw [Group.merged, hothers]
    cases rest with
    | nil =>
      obtain ⟨-, hvalue⟩ := Contribution.assignedTree?_eq_some_iff.1 hc
      rw [← hvalue]
      rfl
    | cons d rest =>
      rw [Group.stacked_of_two_le (by simp), Group.operands, List.flatMap_cons,
        Contribution.operands_of_assignedTree? hc]
      rfl

/-- A contribution that is alone stays as it is. -/
@[simp] theorem mergedEntry_singleton (c : Contribution) :
    table.mergedEntry ⟨i, [c]⟩ = (c.raw, c.value) := by
  have hfew : ¬2 ≤ (Group.mk i [c]).trees.length :=
    Nat.not_le_of_lt (Nat.lt_succ_of_le (length_leadingTrees_le [c]))
  rw [mergedEntry, if_neg hfew]
  rfl

/-- Behind a collection all operands are added to it. -/
theorem mergedEntry_collection_cons {operands : Operands}
    (hspread : (Key.parse table (i.collection.encode table)).spread = true)
    (ds : List Contribution) :
    table.mergedEntry
        ⟨i, Contribution.ofEntry table (i.collection.encode table, .array operands) :: ds⟩ =
      (i.collection.encode table, .array (operands ++ ds.flatMap Contribution.operands)) := by
  generalize hc : Contribution.ofEntry table (i.collection.encode table, .array operands) = c
  have hvalue : c.value = .array operands := by rw [← hc]; rfl
  have hnone : c.assignedTree? = none := by
    unfold Contribution.assignedTree?
    rw [hvalue]
    simp [Value.tree?]
  have hleading : (Group.mk i (c :: ds)).trees = [] := by simp [Group.trees, leadingTrees, hnone]
  have hoperands : c.operands = operands := by
    have hspread : c.key.spread = true := by rw [← hc]; exact hspread
    rw [Contribution.operands, hvalue, hspread]
    rfl
  rw [mergedEntry, hleading, if_neg (by simp)]
  cases ds with
  | nil =>
    have hraw : c.raw = i.collection.encode table := by rw [← hc]; rfl
    simp [Group.stacked, hraw, hvalue]
  | cons d rest =>
    rw [Group.stacked_of_two_le (by simp), Group.operands, List.flatMap_cons, hoperands]
    rfl

/-- What several trees make up can take their place in front of other contributions. -/
theorem mergedEntry_tree_cons {c : Contribution} {rest ds : List Contribution}
    (h : Group.WellFormed table ⟨i, c :: rest⟩)
    (hall : (c :: rest).dropWhile Contribution.assignsTree = [])
    (htrees : 2 ≤ (leadingTrees (c :: rest)).length)
    (hmerge : table.mergeEntries
        (table.mergeEntries (leadingTrees (c :: rest)).flatten ++ (leadingTrees ds).flatten) =
      table.mergeEntries ((leadingTrees (c :: rest)).flatten ++ (leadingTrees ds).flatten)) :
    table.mergedEntry ⟨i, Contribution.ofEntry table
        (c.raw, .tree (table.mergeEntries (leadingTrees (c :: rest)).flatten)) :: ds⟩ =
      table.mergedEntry ⟨i, c :: rest ++ ds⟩ := by
  generalize htree : table.mergeEntries (leadingTrees (c :: rest)).flatten = tree at *
  generalize hfirst : Contribution.ofEntry table (c.raw, .tree tree) = first
  have hassigned : first.assignedTree? = some tree := by
    have hc : c.assignsTree = true := List.dropWhile_eq_nil_iff.1 hall c List.mem_cons_self
    obtain ⟨t, ht⟩ := Option.isSome_iff_exists.1 hc
    have hplain := (Contribution.assignedTree?_eq_some_iff.1 ht).1
    rw [← h.read c List.mem_cons_self] at hplain
    rw [Contribution.assignedTree?_eq_some_iff, ← hfirst]
    exact ⟨hplain, rfl⟩
  have hleading : leadingTrees (first :: ds) = tree :: leadingTrees ds := by
    rw [leadingTrees, hassigned]
  have hwhole : (Group.mk i (c :: rest ++ ds)).trees =
      leadingTrees (c :: rest) ++ leadingTrees ds := leadingTrees_append_of_all hall ds
  have hmerged (t : Tree) : Group.merged table ⟨i, first :: ds⟩ t =
      Group.merged table ⟨i, c :: rest ++ ds⟩ t := by
    have hothers : (Group.mk i (first :: ds)).others = (Group.mk i (c :: rest ++ ds)).others := by
      rw [Group.others_eq, Group.others_eq,
        List.dropWhile_append_of_pos (List.dropWhile_eq_nil_iff.1 hall)]
      simp [hassigned]
    have hraw : first.raw = c.raw := by rw [← hfirst]; rfl
    rw [Group.merged, Group.merged, hothers]
    simp only [Group.firstRaw, Group.collectionKey, List.cons_append, List.head?_cons,
      Option.map_some, hraw]
  have hmany : 2 ≤ (Group.mk i (c :: rest ++ ds)).trees.length := by
    rw [hwhole, List.length_append]
    omega
  have hentry : table.mergedEntry ⟨i, c :: rest ++ ds⟩ =
      Group.merged table ⟨i, c :: rest ++ ds⟩ (table.mergeEntries
        (leadingTrees (c :: rest) ++ leadingTrees ds).flatten) := by
    rw [mergedEntry, if_pos hmany, hwhole]
  rw [hentry, List.flatten_append, ← hmerge, ← hmerged]
  cases hds : leadingTrees ds with
  | nil =>
    rw [hds] at hleading hmerge
    rw [mergedEntry_of_single hleading, hmerge, List.flatten_nil, List.append_nil, htree]
  | cons t trees =>
    have hleading : (Group.mk i (first :: ds)).trees = tree :: t :: trees := by
      rw [Group.trees, hleading, hds]
    rw [mergedEntry, hleading, if_pos (by simp)]
    rfl

/-- The contributions at the bottom of a group can be replaced by the entry that they are merged to, if
the trees among them can. -/
theorem mergedEntry_replace (h : Group.WellFormed table ⟨i, cs⟩) (ds : List Contribution)
    (hmerge : 2 ≤ (leadingTrees cs).length →
      table.mergeEntries (table.mergeEntries (leadingTrees cs).flatten ++ (leadingTrees ds).flatten) =
        table.mergeEntries ((leadingTrees cs).flatten ++ (leadingTrees ds).flatten)) :
    table.mergedEntry ⟨i, Contribution.ofEntry table (table.mergedEntry ⟨i, cs⟩) :: ds⟩ =
      table.mergedEntry ⟨i, cs ++ ds⟩ := by
  obtain ⟨c, rest, rfl⟩ := List.exists_cons_of_ne_nil h.members_ne_nil
  have hread : Contribution.ofEntry table (c.raw, c.value) = c := h.read c List.mem_cons_self
  cases rest with
  | nil =>
    rw [mergedEntry_singleton]
    exact congrArg (fun c => table.mergedEntry ⟨i, c :: ds⟩) hread
  | cons d rest =>
    by_cases hall : (c :: d :: rest).dropWhile Contribution.assignsTree = []
    · have htrees : 2 ≤ (leadingTrees (c :: d :: rest)).length := by
        rw [length_leadingTrees_of_all hall]
        simp
      rw [mergedEntry_of_all hall htrees]
      exact mergedEntry_tree_cons h hall htrees (hmerge htrees)
    · obtain ⟨operands, hoperands⟩ : ∃ operands, ∀ ds, table.mergedEntry ⟨i, c :: d :: rest ++ ds⟩ =
          (i.collection.encode table, .array (operands ++ ds.flatMap Contribution.operands)) :=
        exists_mergedEntry_append (by simp) hall
      have hentry := hoperands []
      rw [List.append_nil, List.flatMap_nil, List.append_nil] at hentry
      rw [hentry, hoperands, mergedEntry_collection_cons (Group.identity_parse_collectionKey h).2]

end Replacing

/-- A merged part can take the place of its layers at the bottom of others. -/
theorem mergeEntries_append (s u : Tree) :
    table.mergeEntries (table.mergeEntries s ++ u) = table.mergeEntries (s ++ u) := by
  induction hweight : Tree.weight s using Nat.strongRecOn generalizing s u with
  | ind weight ih =>
    have hidentities : (table.identities (table.mergeEntries s ++ u)).eraseDups =
        (table.identities (s ++ u)).eraseDups := by
      simp
    rw [mergeEntries_eq_map (table.mergeEntries s ++ u), mergeEntries_eq_map (s ++ u),
      ofEntries_eq_map, ofEntries_eq_map, hidentities, List.map_map, List.map_map]
    apply List.map_congr_left
    intro i _
    rw [Function.comp_apply, Function.comp_apply, membersAt_append, membersAt_append]
    by_cases hi : i ∈ table.identities s
    · rw [membersAt_mergeEntries hi, List.singleton_append]
      refine mergedEntry_replace (wellFormed_membersAt hi) _ fun htrees => ih _ ?_ _ _ rfl
      -- The trees at an identity weigh less than the entries among which they stand.
      have hgroup : Group.mk i (table.membersAt i s) ∈ Group.ofEntries table s := by
        rw [ofEntries_eq_map]
        exact List.mem_map.2 ⟨i, List.mem_eraseDups.2 hi, rfl⟩
      rw [← hweight]
      exact Group.weight_trees_lt hgroup
        (List.ne_nil_of_length_pos (Nat.lt_of_lt_of_le Nat.zero_lt_two htrees))
    · have hi' : i ∉ table.identities (table.mergeEntries s) := by simpa using hi
      rw [membersAt_eq_nil hi, membersAt_eq_nil hi']

/-- Trees that are merged all at once are merged in turn. -/
theorem mergeEntries_flatten (lowest : Tree) {trees : List Tree} (h : trees ≠ []) :
    table.mergeEntries (lowest :: trees).flatten = table.mergeInTurn lowest trees := by
  induction trees using List.reverseRecOn with
  | nil => exact absurd rfl h
  | append_singleton trees upper ih =>
    have hflatten : (lowest :: (trees ++ [upper])).flatten = (lowest :: trees).flatten ++ upper := by
      simp
    have hpair (lower : Tree) : table.merge [lower, upper] = table.mergeEntries (lower ++ upper) := by
      simp [merge]
    rw [mergeInTurn_concat, hpair, hflatten]
    cases trees with
    | nil => simp [mergeInTurn]
    | cons t rest => rw [← ih (List.cons_ne_nil t rest), mergeEntries_append]

/-- The entry of a group is that of merging its trees in turn. -/
theorem mergedEntry_eq_inTurn (g : Group) : table.mergedEntry g = g.inTurn table := by
  cases htrees : leadingTrees g.members with
  | nil =>
    have hfew : ¬2 ≤ g.trees.length := by simp [Group.trees, htrees]
    rw [Group.inTurn_of_none htrees, mergedEntry, if_neg hfew]
  | cons lowest trees =>
    rw [Group.inTurn_of_trees htrees]
    cases trees with
    | nil => exact mergedEntry_of_single htrees
    | cons t rest =>
      have hmany : 2 ≤ g.trees.length := by simp [Group.trees, htrees]
      rw [mergedEntry, if_pos hmany, ← mergeEntries_flatten lowest (List.cons_ne_nil t rest),
        Group.trees, htrees]

end OperatorTable

namespace Slot

variable (table : OperatorTable)

/-- Take up one more contribution. A tree that is assigned is merged with the one that the slot holds;
anything else is collected. -/
def takeUp (s : Slot) (c : Contribution) : Slot :=
  match s.holding with
  | .single d =>
    match d.assignedTree?, c.assignedTree? with
    | some lower, some upper =>
      ⟨s.identity, .single { d with value := .tree (table.merge [lower, upper]) }⟩
    | _, _ => s.absorb c
  | .collection _ => s.absorb c

/-- The slots of contributions when trees are merged as they come. -/
def inTurn (cs : List Contribution) : List Slot :=
  cs.foldl (fun slots c =>
    amend (fun s => s.identity == c.identity) (fun s => s.takeUp table c) (first c) slots) []

/-- What the slot of contributions holds after the last of them when trees are merged as they come. -/
def holdingInTurn (cs : List Contribution) : Holding :=
  match leadingTrees cs with
  | [] => holdingOf cs
  | lowest :: trees =>
    match cs, cs.dropWhile Contribution.assignsTree with
    | c :: _, [] => .single { c with value := .tree (table.mergeInTurn lowest trees) }
    | _, others =>
      .collection (.tree (table.mergeInTurn lowest trees) :: others.flatMap Contribution.operands)

variable {table} {cs : List Contribution} {lowest : Tree} {trees : List Tree}

/-- Where no tree comes first, all contributions are collected. -/
theorem holdingInTurn_of_none (h : leadingTrees cs = []) : holdingInTurn table cs = holdingOf cs := by
  simp only [holdingInTurn, h]

/-- Trees alone are held as one tree at the first key. -/
theorem holdingInTurn_of_all {c : Contribution} (htrees : leadingTrees (c :: cs) = lowest :: trees)
    (hall : (c :: cs).dropWhile Contribution.assignsTree = []) :
    holdingInTurn table (c :: cs) =
      .single { c with value := .tree (table.mergeInTurn lowest trees) } := by
  simp only [holdingInTurn, htrees, hall]

/-- Trees with something behind them are held as one operand. -/
theorem holdingInTurn_of_other (htrees : leadingTrees cs = lowest :: trees)
    (hother : cs.dropWhile Contribution.assignsTree ≠ []) :
    holdingInTurn table cs = .collection (.tree (table.mergeInTurn lowest trees) ::
      (cs.dropWhile Contribution.assignsTree).flatMap Contribution.operands) := by
  obtain ⟨d, others, hcons⟩ := List.exists_cons_of_ne_nil hother
  simp only [holdingInTurn, htrees, hcons]

/-- A slot that holds no tree collects what it takes up. -/
theorem takeUp_of_none (c : Contribution) (i : Identity) (h : cs ≠ []) (htrees : leadingTrees cs = []) :
    takeUp table ⟨i, holdingInTurn table cs⟩ c = ⟨i, holdingInTurn table (cs ++ [c])⟩ := by
  obtain ⟨d, rest, rfl⟩ := List.exists_cons_of_ne_nil h
  have hd : d.assignedTree? = none := by
    cases hd : d.assignedTree? <;> simp [leadingTrees, hd] at htrees ⊢
  have hother : (d :: rest).dropWhile Contribution.assignsTree ≠ [] := by
    simp [hd]
  rw [holdingInTurn_of_none htrees,
    holdingInTurn_of_none ((leadingTrees_append_of_other hother [c]).trans htrees),
    ← absorb_holdingOf c i h]
  cases rest with
  | nil => simp [takeUp, holdingOf, hd]
  | cons e rest => rfl

/-- A slot that holds a tree merges it with a tree, and becomes a collection with anything else. -/
theorem takeUp_of_all (c : Contribution) (i : Identity) (htrees : leadingTrees cs = lowest :: trees)
    (hall : cs.dropWhile Contribution.assignsTree = []) :
    takeUp table ⟨i, holdingInTurn table cs⟩ c = ⟨i, holdingInTurn table (cs ++ [c])⟩ := by
  cases cs with
  | nil => simp at htrees
  | cons d rest =>
    obtain ⟨t, ht⟩ := Option.isSome_iff_exists.1
      (List.dropWhile_eq_nil_iff.1 hall d List.mem_cons_self)
    have hleading : leadingTrees (d :: rest ++ [c]) = lowest :: (trees ++ leadingTrees [c]) := by
      rw [leadingTrees_append_of_all hall, htrees, List.cons_append]
    have hothers : (d :: rest ++ [c]).dropWhile Contribution.assignsTree =
        [c].dropWhile Contribution.assignsTree :=
      List.dropWhile_append_of_pos (List.dropWhile_eq_nil_iff.1 hall)
    rw [holdingInTurn_of_all htrees hall]
    generalize htree : table.mergeInTurn lowest trees = tree
    have hheld : Contribution.assignedTree? { d with value := .tree tree } = some tree :=
      Contribution.assignedTree?_eq_some_iff.2 ⟨(Contribution.assignedTree?_eq_some_iff.1 ht).1, rfl⟩
    cases hc : c.assignedTree? with
    | some upper =>
      have hupper : leadingTrees [c] = [upper] := by simp [hc]
      have hall' : (d :: rest ++ [c]).dropWhile Contribution.assignsTree = [] := by
        rw [hothers]
        simp [hc]
      rw [hupper] at hleading
      rw [List.cons_append] at hleading hall' ⊢
      rw [holdingInTurn_of_all hleading hall', OperatorTable.mergeInTurn_concat, htree]
      simp only [takeUp, hheld, hc]
    | none =>
      have hupper : leadingTrees [c] = [] := by simp [hc]
      have hothers' : (d :: rest ++ [c]).dropWhile Contribution.assignsTree = [c] := by
        rw [hothers]
        simp [hc]
      have hother : (d :: rest ++ [c]).dropWhile Contribution.assignsTree ≠ [] := by
        rw [hothers']
        exact List.cons_ne_nil c []
      rw [hupper, List.append_nil] at hleading
      rw [holdingInTurn_of_other hleading hother, hothers', htree, List.flatMap_singleton]
      simp only [takeUp, hheld, hc, absorb, Contribution.operands_of_assignedTree? hheld,
        List.singleton_append]

/-- A collection stays one, with all operands of what it takes up. -/
theorem takeUp_of_other (c : Contribution) (i : Identity) (htrees : leadingTrees cs = lowest :: trees)
    (hother : cs.dropWhile Contribution.assignsTree ≠ []) :
    takeUp table ⟨i, holdingInTurn table cs⟩ c = ⟨i, holdingInTurn table (cs ++ [c])⟩ := by
  have hother' : (cs ++ [c]).dropWhile Contribution.assignsTree ≠ [] := by
    rw [dropWhile_append_of_other hother]
    exact List.append_ne_nil_of_left_ne_nil hother [c]
  rw [holdingInTurn_of_other htrees hother,
    holdingInTurn_of_other ((leadingTrees_append_of_other hother [c]).trans htrees) hother',
    dropWhile_append_of_other hother, List.flatMap_append, List.flatMap_singleton]
  rfl

/-- Taking up a contribution leaves what all of them make up in turn. -/
theorem takeUp_holdingInTurn (c : Contribution) (i : Identity) (h : cs ≠ []) :
    takeUp table ⟨i, holdingInTurn table cs⟩ c = ⟨i, holdingInTurn table (cs ++ [c])⟩ := by
  cases htrees : leadingTrees cs with
  | nil => exact takeUp_of_none c i h htrees
  | cons lowest trees =>
    by_cases hall : cs.dropWhile Contribution.assignsTree = []
    · exact takeUp_of_all c i htrees hall
    · exact takeUp_of_other c i htrees hall

/-- A contribution that is alone is held as it is. -/
@[simp] theorem holdingInTurn_singleton (c : Contribution) :
    holdingInTurn table [c] = .single c := by
  cases hc : c.assignedTree? with
  | none => exact holdingInTurn_of_none (by simp [hc])
  | some t =>
    have htrees : leadingTrees [c] = [t] := by simp [hc]
    have hall : [c].dropWhile Contribution.assignsTree = [] := by simp [hc]
    rw [holdingInTurn_of_all htrees hall]
    exact congrArg Holding.single (Contribution.with_assignedTree? hc)

/-- Each slot holds what the contributions to its identity make up in turn. -/
theorem inTurn_eq (cs : List Contribution) :
    inTurn table cs = (cs.map Contribution.identity).eraseDups.map
      fun i => ⟨i, holdingInTurn table (cs.filter fun c => c.identity == i)⟩ :=
  foldl_amend_eq_map identity Contribution.identity first (fun c s => s.takeUp table c)
    (fun i cs => ⟨i, holdingInTurn table cs⟩) (fun _ _ => rfl)
    (fun c => by rw [holdingInTurn_singleton]; rfl) (fun c i _ h => takeUp_holdingInTurn c i h) cs

/-- The entry of a slot is that of the group it holds. -/
theorem entry_holdingInTurn (g : Group) (h : g.members ≠ []) :
    entry table ⟨g.identity, holdingInTurn table g.members⟩ = g.inTurn table := by
  cases htrees : leadingTrees g.members with
  | nil => rw [holdingInTurn_of_none htrees, entry_holdingOf table g, Group.inTurn_of_none htrees]
  | cons lowest trees =>
    rw [Group.inTurn_of_trees htrees]
    by_cases hall : g.members.dropWhile Contribution.assignsTree = []
    · rw [Group.merged_of_all table hall]
      obtain ⟨i, cs⟩ := g
      obtain ⟨c, rest, rfl⟩ := List.exists_cons_of_ne_nil h
      rw [holdingInTurn_of_all htrees hall]
      rfl
    · rw [holdingInTurn_of_other htrees hall, Group.merged_of_other table hall]
      rfl

end Slot

namespace OperatorTable

/-- A merged tree has one entry for each identity, in first-seen order: that of merging in turn. -/
theorem mergeEntries_eq_inTurn (t : Tree) :
    table.mergeEntries t = (table.identities t).eraseDups.map fun i =>
      Group.inTurn table ⟨i, table.membersAt i t⟩ := by
  rw [mergeEntries_eq_map, ofEntries_eq_map, List.map_map]
  exact List.map_congr_left fun i _ => mergedEntry_eq_inTurn _

/-- The slots that merge trees as they come have the entries of merging in turn. -/
theorem entries_slots_inTurn (t : Tree) :
    (Slot.inTurn table (t.map (Contribution.ofEntry table))).map (Slot.entry table) =
      (table.identities t).eraseDups.map fun i => Group.inTurn table ⟨i, table.membersAt i t⟩ := by
  have hidentities : (t.map (Contribution.ofEntry table)).map Contribution.identity =
      table.identities t := List.map_map
  rw [Slot.inTurn_eq, List.map_map, hidentities]
  apply List.map_congr_left
  intro i hi
  exact Slot.entry_holdingInTurn ⟨i, table.membersAt i t⟩
    (membersAt_ne_nil_iff.2 (List.mem_eraseDups.1 hi))

/-- Merging differs from stacking only where plain trees meet. Both give one key to each identity of the
layers, in first-seen order, and the entry of stacking where no tree is assigned first. Where the
contributions to an identity begin with trees, these are merged in turn, and what they make up stands at
the first key if nothing follows, or else in front of the operands of all that follows, under the key
that collects them. This is what slots come to that take up one contribution after the other. -/
theorem merging_differs_where_trees_meet (table : OperatorTable) (layers : List Tree) :
    let identities := (table.identities layers.flatten).eraseDups
    let group (i : Identity) : Group := ⟨i, table.membersAt i layers.flatten⟩
    table.identities (table.merge layers) = identities ∧
      table.stack layers = identities.map (fun i => (group i).stacked table) ∧
      table.merge layers = identities.map (fun i => (group i).inTurn table) ∧
      table.merge layers = Tree.ofEntries ((Slot.inTurn table
        (layers.flatten.map (Contribution.ofEntry table))).map (Slot.entry table)) := by
  intro identities group
  have hentries : table.merge layers = identities.map fun i => (group i).inTurn table :=
    mergeEntries_eq_inTurn layers.flatten
  have hidentities : table.identities (table.merge layers) = identities :=
    identities_mergeEntries layers.flatten
  refine ⟨hidentities, stack_eq table layers, hentries, ?_⟩
  have hkeys : ((table.merge layers).map Prod.fst).Nodup := by
    refine List.Nodup.of_map table.identityOf ?_
    rw [List.map_map]
    change (table.identities (table.merge layers)).Nodup
    rw [hidentities]
    exact nodup_eraseDups _
  rw [entries_slots_inTurn, ← mergeEntries_eq_inTurn]
  exact (Tree.ofEntries_of_nodup hkeys).symm

/-- Two trees at an escaped key and a bare one make up one tree before a number comes and collects it. -/
example : empty.merge [[("()s", .tree [("a", .null)]), ("+s", .null)], [("s", .tree [("b", .null)])],
    [("s", .number (.int 5)), ("#s", .array [.null])]] =
      [("#s", .array [.tree [("a", .null), ("b", .null)], .number (.int 5), .null]), ("+s", .null)] := by
  decide +kernel

end OperatorTable

end Overlay
