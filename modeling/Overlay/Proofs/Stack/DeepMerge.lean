import Overlay.Proofs.Stack.Merging

/-!
# Deep merges of trees without operators

A deep merge lays one tree over another, key by key. It is written here as one recursion, without
layers, groups and collections, and is what merging amounts to for trees whose keys are plain: the
merged tree has the keys of the deep merge in order, and the last operand at each key is what the
two values there make.
-/

namespace Overlay

mutual

/-- Lay one value over another: trees key by key, and otherwise the upper value prevails. -/
def Value.deepMerge : Value → Value → Value
  | .tree lower, .tree upper =>
    .tree (Tree.laidUnder lower upper ++ upper.filter fun e => (lower.lookup e.1).isNone)
  | _, upper => upper

/-- The entries of a tree, with the values of another tree laid over those at common keys. -/
def Tree.laidUnder : Tree → Tree → Tree
  | [], _ => []
  | (key, value) :: rest, upper =>
    (key, match upper.lookup key with
      | some above => value.deepMerge above
      | none => value) :: Tree.laidUnder rest upper

end

/-- Lay one tree over another: the keys of the lower tree in order, common keys merged, and then the
new keys of the upper tree. -/
def Tree.deepMerge (lower upper : Tree) : Tree :=
  laidUnder lower upper ++ upper.filter fun e => (lower.lookup e.1).isNone

/-- Test for a plain key that is written canonically. -/
def Key.isCanonicalPlain (table : OperatorTable) (raw : String) : Bool :=
  (parse table raw).isPlain && (parse table raw).encode table == raw

mutual

/-- Test for a value without operators: all keys in it, outside arrays, are distinct in their tree,
plain and canonical. -/
def Value.isOperatorFree (table : OperatorTable) : Value → Bool
  | .tree entries => decide (entries.map Prod.fst).Nodup && Tree.entriesOperatorFree table entries
  | _ => true

/-- Test for entries with plain and canonical keys, and values without operators. -/
def Tree.entriesOperatorFree (table : OperatorTable) : Tree → Bool
  | [] => true
  | (key, value) :: rest => Key.isCanonicalPlain table key && value.isOperatorFree table &&
      Tree.entriesOperatorFree table rest

end

/-- A tree without operators. -/
structure Tree.OperatorFree (table : OperatorTable) (t : Tree) : Prop where
  distinct : (t.map Prod.fst).Nodup
  canonical : ∀ e ∈ t, Key.isCanonicalPlain table e.1 = true
  values : ∀ e ∈ t, e.2.isOperatorFree table = true

section OperatorFree

variable {table : OperatorTable}

/-- A value that is a tree is without operators if the tree is. -/
theorem isOperatorFree_tree_iff {t : Tree} :
    (Value.tree t).isOperatorFree table = true ↔ t.OperatorFree table := by
  have hentries (u : Tree) : Tree.entriesOperatorFree table u = true ↔
      ∀ e ∈ u, Key.isCanonicalPlain table e.1 = true ∧ e.2.isOperatorFree table = true := by
    induction u with
    | nil => simp [Tree.entriesOperatorFree]
    | cons e rest ih => simp [Tree.entriesOperatorFree, ih]
  rw [Value.isOperatorFree, Bool.and_eq_true, decide_eq_true_iff, hentries]
  exact ⟨fun ⟨hdistinct, h⟩ => ⟨hdistinct, fun e he => (h e he).1, fun e he => (h e he).2⟩,
    fun h => ⟨h.distinct, fun e he => ⟨h.canonical e he, h.values e he⟩⟩⟩

end OperatorFree

namespace Tree

variable {t lower upper : Tree} {key : String}

section Lookup

/-- The first entry decides what is looked up at its own key, and the other entries decide for all
other keys. -/
theorem lookup_cons_eq (e : String × Value) (t : Tree) (key : String) :
    (e :: t).lookup key = if key = e.1 then some e.2 else t.lookup key := by
  rw [List.lookup_cons]
  by_cases hkey : key = e.1
  · simp [hkey]
  · rw [if_neg hkey, beq_eq_false_iff_ne.2 hkey]

/-- A key is looked up if it is there. -/
theorem lookup_isSome_iff_mem : (t.lookup key).isSome = true ↔ key ∈ t.map Prod.fst := by
  induction t with
  | nil => simp
  | cons e rest ih =>
    rw [lookup_cons_eq, List.map_cons, List.mem_cons, ← ih]
    by_cases hkey : key = e.1 <;> simp [hkey]

/-- Among distinct keys the value of an entry is the one that is looked up. -/
theorem lookup_eq_some_iff_mem (h : (t.map Prod.fst).Nodup) {value : Value} :
    t.lookup key = some value ↔ (key, value) ∈ t := by
  induction t with
  | nil => simp
  | cons e rest ih =>
    obtain ⟨hnew, hrest⟩ := List.nodup_cons.1 h
    rw [lookup_cons_eq, List.mem_cons, ← ih hrest]
    by_cases hkey : key = e.1
    · subst hkey
      have hother : rest.lookup e.1 = none := by
        rwa [← lookup_isSome_iff_mem, Bool.not_eq_true, Option.isSome_eq_false_iff,
          Option.isNone_iff_eq_none] at hnew
      simp [hother, Prod.ext_iff, eq_comm]
    · simp [hkey, Prod.ext_iff]

/-- A tree with distinct keys is told by its keys and what is looked up at them. -/
theorem eq_flatMap_keys (h : (t.map Prod.fst).Nodup) :
    t = (t.map Prod.fst).flatMap fun key => (t.lookup key).toList.map fun value => (key, value) := by
  have hentry : ∀ e ∈ t, ((t.lookup e.1).toList.map fun value => (e.1, value)) = [e] := by
    intro e he
    rw [(lookup_eq_some_iff_mem h).2 he]
    rfl
  rw [List.flatMap_map, List.flatMap_congr hentry, List.flatMap_singleton']

end Lookup

section DeepMerge

/-- The entries that another tree is laid over keep their keys. -/
theorem keys_laidUnder (lower upper : Tree) :
    (laidUnder lower upper).map Prod.fst = lower.map Prod.fst := by
  induction lower with
  | nil => rfl
  | cons e rest ih => rw [laidUnder, List.map_cons, ih, List.map_cons]

/-- The values at common keys are merged. -/
theorem lookup_laidUnder (lower upper : Tree) (key : String) :
    (laidUnder lower upper).lookup key = (lower.lookup key).map fun value =>
      match upper.lookup key with
      | some above => value.deepMerge above
      | none => value := by
  induction lower with
  | nil => rfl
  | cons e rest ih =>
    rw [laidUnder, lookup_cons_eq, lookup_cons_eq, ih]
    by_cases hkey : key = e.1
    · subst hkey
      simp
    · simp [hkey]

/-- The keys of a deep merge are those of both trees, as they are first seen. -/
theorem keys_deepMerge (hlower : (lower.map Prod.fst).Nodup) (hupper : (upper.map Prod.fst).Nodup) :
    (deepMerge lower upper).map Prod.fst = ((lower ++ upper).map Prod.fst).eraseDups := by
  have hnew : ((fun key => !(lower.map Prod.fst).elem key) ∘ Prod.fst : String × Value → Bool) =
      fun e => (lower.lookup e.1).isNone := by
    funext e
    rw [Function.comp_apply, Bool.eq_iff_iff, Bool.not_eq_true', ← Bool.not_eq_true,
      List.elem_iff, ← lookup_isSome_iff_mem, Bool.not_eq_true, Option.isSome_eq_false_iff]
  have hpicked : (upper.filter fun e => (lower.lookup e.1).isNone).map Prod.fst =
      (upper.map Prod.fst).removeAll (lower.map Prod.fst) := by
    rw [← hnew, ← List.filter_map]
    rfl
  have hrest : ((upper.map Prod.fst).removeAll (lower.map Prod.fst)).Nodup := hupper.filter _
  rw [deepMerge, List.map_append, keys_laidUnder, hpicked, List.map_append, List.eraseDups_append,
    eraseDups_of_nodup hlower, eraseDups_of_nodup hrest]

/-- Leaving out keys leaves what is looked up at the others. -/
theorem lookup_filter_key (p : String → Bool) (t : Tree) (key : String) :
    (t.filter fun e => p e.1).lookup key = if p key then t.lookup key else none := by
  induction t with
  | nil => simp
  | cons e rest ih =>
    rw [lookup_cons_eq, List.filter_cons]
    by_cases hkey : key = e.1
    · subst hkey
      by_cases hp : p e.1 = true <;> simp [hp, ih, lookup_cons_eq]
    · by_cases hp : p e.1 = true <;> simp [hp, ih, lookup_cons_eq, hkey]

/-- A deep merge has the merged values at all keys. -/
theorem lookup_deepMerge (lower upper : Tree) (key : String) :
    (deepMerge lower upper).lookup key =
      (lower.lookup key).merge Value.deepMerge (upper.lookup key) := by
  rw [deepMerge, List.lookup_append, lookup_laidUnder,
    lookup_filter_key fun key => (lower.lookup key).isNone]
  cases lower.lookup key with
  | none => simp
  | some value => cases upper.lookup key <;> rfl

end DeepMerge

/-- A value in a tree weighs less than the tree. -/
theorem weight_lt_of_mem {e : String × Value} (h : e ∈ t) : e.2.weight < weight t := by
  induction t with
  | nil => simp at h
  | cons f rest ih =>
    rw [weight]
    rcases List.mem_cons.1 h with rfl | h
    · omega
    · have := ih h
      omega

/-- The entry of a key is the only one that is picked out with the key. -/
theorem filter_key_eq (h : (t.map Prod.fst).Nodup) (key : String) :
    (t.filter fun e => e.1 == key) = (t.lookup key).toList.map fun value => (key, value) := by
  induction t with
  | nil => rfl
  | cons e rest ih =>
    obtain ⟨hnew, hrest⟩ := List.nodup_cons.1 h
    rw [List.filter_cons, ih hrest, lookup_cons_eq]
    by_cases hkey : key = e.1
    · subst hkey
      have hother : rest.lookup e.1 = none := by
        rwa [← lookup_isSome_iff_mem, Bool.not_eq_true, Option.isSome_eq_false_iff,
          Option.isNone_iff_eq_none] at hnew
      simp [hother]
    · simp [hkey, Ne.symm hkey]

end Tree

section OperatorFree

variable {table : OperatorTable} {lower upper : Tree}

/-- What holds of two values that may be absent, and of what they make, holds of their merge. -/
theorem forall_mem_merge {P : Value → Prop} {f : Value → Value → Value} {a b : Option Value}
    (ha : ∀ v ∈ a, P v) (hb : ∀ w ∈ b, P w) (hf : ∀ v ∈ a, ∀ w ∈ b, P (f v w)) :
    ∀ v ∈ a.merge f b, P v := by
  cases a <;> cases b <;> simp_all

/-- What is looked up in a tree without operators has none. -/
theorem Tree.OperatorFree.of_lookup {t : Tree} (h : t.OperatorFree table) {key : String} :
    ∀ value ∈ t.lookup key, value.isOperatorFree table = true := fun _ hvalue =>
  h.values _ ((lookup_eq_some_iff_mem h.distinct).1 hvalue)

/-- A deep merge of trees without operators has none. -/
theorem Tree.OperatorFree.deepMerge (hlower : lower.OperatorFree table)
    (hupper : upper.OperatorFree table) : (lower.deepMerge upper).OperatorFree table := by
  -- Trees that meet at a key are merged in turn, and the lower one weighs less than `lower`.
  induction hweight : lower.weight using Nat.strongRecOn generalizing lower upper with
  | ind n ih =>
    subst hweight
    have hdistinct : ((lower.deepMerge upper).map Prod.fst).Nodup := by
      rw [keys_deepMerge hlower.distinct hupper.distinct]
      exact nodup_eraseDups _
    refine ⟨hdistinct, fun e he => ?_, fun e he => ?_⟩
    · have hkey := List.mem_map_of_mem (f := Prod.fst) he
      rw [keys_deepMerge hlower.distinct hupper.distinct, List.mem_eraseDups] at hkey
      obtain ⟨f, hf, hkey⟩ := List.mem_map.1 hkey
      rw [← hkey]
      exact (List.mem_append.1 hf).elim (hlower.canonical f) (hupper.canonical f)
    · have hvalue := (lookup_eq_some_iff_mem hdistinct).2 he
      rw [lookup_deepMerge] at hvalue
      refine forall_mem_merge hlower.of_lookup hupper.of_lookup (fun a ha b hb => ?_) e.2 hvalue
      have hafree := hlower.of_lookup a ha
      have hbfree := hupper.of_lookup b hb
      unfold Value.deepMerge
      split
      · next l u =>
        have hlighter := weight_lt_of_mem ((lookup_eq_some_iff_mem hlower.distinct).1 ha)
        rw [Value.weight] at hlighter
        exact isOperatorFree_tree_iff.2 (ih _ (by omega) (isOperatorFree_tree_iff.1 hafree)
          (isOperatorFree_tree_iff.1 hbfree) rfl)
      · exact hbfree

/-- A deep merge of values without operators has none. -/
theorem isOperatorFree_deepMerge {a b : Value} (ha : a.isOperatorFree table = true)
    (hb : b.isOperatorFree table = true) : (a.deepMerge b).isOperatorFree table = true := by
  unfold Value.deepMerge
  split
  · exact isOperatorFree_tree_iff.2
      ((isOperatorFree_tree_iff.1 ha).deepMerge (isOperatorFree_tree_iff.1 hb))
  · exact hb

end OperatorFree

namespace Key

variable {table : OperatorTable} {raw raw' : String}

/-- A plain and canonical key is read as a plain key and written as it stands. -/
theorem isCanonicalPlain_iff : isCanonicalPlain table raw = true ↔
    (parse table raw).isPlain = true ∧ (parse table raw).encode table = raw := by
  rw [isCanonicalPlain, Bool.and_eq_true, beq_iff_eq]

/-- A plain and canonical key is read as the plain identity of its base key, without spread. -/
theorem identity_of_isCanonicalPlain (h : isCanonicalPlain table raw = true) :
    (parse table raw).identity = ⟨.assign, (parse table raw).base⟩ ∧
      (parse table raw).spread = false := by
  obtain ⟨hoperator, -, hspread⟩ := agrees_iff.1 (agrees_plain (isCanonicalPlain_iff.1 h).1)
  exact ⟨Identity.ext hoperator rfl, hspread⟩

/-- A plain and canonical key is what its base key is written as. -/
theorem encode_base_of_isCanonicalPlain (h : isCanonicalPlain table raw = true) :
    (plain (parse table raw).base).encode table = raw :=
  encode_plain_base (isCanonicalPlain_iff.1 h).1 (isCanonicalPlain_iff.1 h).2

/-- Plain and canonical keys are told apart by their base keys. -/
theorem eq_of_isCanonicalPlain (h : isCanonicalPlain table raw = true)
    (h' : isCanonicalPlain table raw' = true)
    (heq : (parse table raw).identity = (parse table raw').identity) : raw = raw' := by
  have hbase : (parse table raw).base = (parse table raw').base := congrArg Identity.base heq
  rw [← encode_base_of_isCanonicalPlain h, hbase, encode_base_of_isCanonicalPlain h']

end Key

namespace OperatorTable

variable {table : OperatorTable} {t lower upper : Tree} {key : String}

/-- What two values of a plain key are merged into: two trees into a tree, and otherwise the upper
value comes to stand last. -/
def mergeValues (table : OperatorTable) : Value → Value → Value
  | .tree lower, .tree upper => .tree (table.mergeEntries (lower ++ upper))
  | _, upper => upper

/-- In a tree without operators a plain key has one contribution, if it is there. -/
theorem membersAt_of_operatorFree (ht : t.OperatorFree table)
    (hkey : Key.isCanonicalPlain table key = true) :
    table.membersAt (table.identityOf key) t =
      (t.lookup key).toList.map fun value => Contribution.ofEntry table (key, value) := by
  have hpicked : (t.filter fun e => table.identityOf e.1 == table.identityOf key) =
      t.filter fun e => e.1 == key := by
    apply List.filter_congr
    intro e he
    rw [Bool.eq_iff_iff, beq_iff_eq, beq_iff_eq]
    exact ⟨Key.eq_of_isCanonicalPlain (ht.canonical e he) hkey, fun h => by rw [h]⟩
  rw [membersAt, List.filter_map]
  refine (congrArg (List.map _) hpicked).trans ?_
  rw [Tree.filter_key_eq ht.distinct, List.map_map]
  rfl

/-- A plain key contributes its value. -/
theorem operands_of_isCanonicalPlain (hkey : Key.isCanonicalPlain table key = true) (value : Value) :
    (Contribution.ofEntry table (key, value)).operands = [value] := by
  rw [Contribution.operands, Contribution.ofEntry, (Key.identity_of_isCanonicalPlain hkey).2]
  rfl

/-- In a tree without operators a plain key has its value as operand, if it is there. -/
theorem operandsAt_of_operatorFree (ht : t.OperatorFree table)
    (hkey : Key.isCanonicalPlain table key = true) :
    table.operandsAt (table.identityOf key) t = (t.lookup key).toList := by
  rw [operandsAt, membersAt_of_operatorFree ht hkey]
  cases t.lookup key with
  | none => rfl
  | some value => simp [operands_of_isCanonicalPlain hkey]

/-- Where a group does not begin with several trees, its entry has all its operands. -/
theorem operands_mergedEntry {g : Group} (hg : g.WellFormed table) (h : ¬ 2 ≤ g.trees.length) :
    (Contribution.ofEntry table (table.mergedEntry g)).operands = g.operands := by
  rw [mergedEntry, if_neg h]
  exact (Group.ofEntry_stacked hg).2

/-- A plain key assigns its value, if this is a tree. -/
theorem assignedTree?_of_isCanonicalPlain (hkey : Key.isCanonicalPlain table key = true)
    (value : Value) : (Contribution.ofEntry table (key, value)).assignedTree? = value.tree? :=
  if_pos (Key.isCanonicalPlain_iff.1 hkey).1

/-- Two plain values at a key are merged into one operand at the end. -/
theorem getLast?_operands_pair (hkey : Key.isCanonicalPlain table key = true) (a b : Value)
    (hg : Group.WellFormed table ⟨table.identityOf key,
      [Contribution.ofEntry table (key, a), Contribution.ofEntry table (key, b)]⟩) :
    (Contribution.ofEntry table (table.mergedEntry ⟨table.identityOf key,
      [Contribution.ofEntry table (key, a), Contribution.ofEntry table (key, b)]⟩)).operands.getLast? =
        some (table.mergeValues a b) := by
  have htrees (v : Value) := assignedTree?_of_isCanonicalPlain hkey v
  unfold mergeValues
  split
  · next l u =>
    have hboth : Group.trees ⟨table.identityOf key, [Contribution.ofEntry table (key, .tree l),
        Contribution.ofEntry table (key, .tree u)]⟩ = [l, u] := by
      simp [Group.trees, leadingTrees, htrees, Value.tree?]
    have hentry : table.mergedEntry ⟨table.identityOf key, [Contribution.ofEntry table (key, .tree l),
        Contribution.ofEntry table (key, .tree u)]⟩ =
          (key, .tree (table.mergeEntries (l ++ u))) := by
      rw [mergedEntry, hboth, if_pos (by simp), Group.merged, Group.others, hboth]
      simp [Group.firstRaw, Contribution.ofEntry]
    rw [hentry, operands_of_isCanonicalPlain hkey]
    rfl
  · next hnot =>
    have hfew : ¬ 2 ≤ (Group.trees ⟨table.identityOf key, [Contribution.ofEntry table (key, a),
        Contribution.ofEntry table (key, b)]⟩).length := by
      cases a with
      | tree l =>
        cases b with
        | tree u => exact absurd rfl (hnot l u rfl)
        | _ => simp [Group.trees, leadingTrees, htrees, Value.tree?]
      | _ => simp [Group.trees, leadingTrees, htrees, Value.tree?]
    rw [operands_mergedEntry hg hfew, Group.operands]
    simp [operands_of_isCanonicalPlain hkey]

/-- The last operand at a plain key of a merged tree is what the two values there make. -/
theorem getLast?_operandsAt_mergeEntries (hlower : lower.OperatorFree table)
    (hupper : upper.OperatorFree table) (hkey : key ∈ (lower ++ upper).map Prod.fst) :
    (table.operandsAt (table.identityOf key) (table.mergeEntries (lower ++ upper))).getLast? =
      (lower.lookup key).merge table.mergeValues (upper.lookup key) := by
  have hcanonical : Key.isCanonicalPlain table key = true := by
    obtain ⟨e, he, rfl⟩ := List.mem_map.1 hkey
    exact (List.mem_append.1 he).elim (hlower.canonical e) (hupper.canonical e)
  have hmem : table.identityOf key ∈ table.identities (lower ++ upper) := by
    obtain ⟨e, he, rfl⟩ := List.mem_map.1 hkey
    exact List.mem_map_of_mem he
  have hmembers : table.membersAt (table.identityOf key) (lower ++ upper) =
      ((lower.lookup key).toList ++ (upper.lookup key).toList).map fun value =>
        Contribution.ofEntry table (key, value) := by
    rw [membersAt_append, membersAt_of_operatorFree hlower hcanonical,
      membersAt_of_operatorFree hupper hcanonical, List.map_append]
  have hsome : (lower.lookup key).isSome = true ∨ (upper.lookup key).isSome = true := by
    rw [List.map_append, List.mem_append] at hkey
    exact hkey.imp Tree.lookup_isSome_iff_mem.2 Tree.lookup_isSome_iff_mem.2
  have hg := wellFormed_membersAt hmem
  have hone (v : Value) (hv : Group.WellFormed table ⟨table.identityOf key,
      [Contribution.ofEntry table (key, v)]⟩) :
      (Contribution.ofEntry table (table.mergedEntry ⟨table.identityOf key,
        [Contribution.ofEntry table (key, v)]⟩)).operands.getLast? = some v := by
    have hfew : ¬ 2 ≤ (Group.trees ⟨table.identityOf key,
        [Contribution.ofEntry table (key, v)]⟩).length := by
      simp only [Group.trees, leadingTrees]
      split <;> simp
    rw [operands_mergedEntry hv hfew, Group.operands]
    simp [operands_of_isCanonicalPlain hcanonical]
  rw [operandsAt, membersAt_mergeEntries hmem, List.flatMap_singleton]
  rw [hmembers] at hg ⊢
  generalize lower.lookup key = a at hg hsome ⊢
  generalize upper.lookup key = b at hg hsome ⊢
  cases a with
  | none =>
    cases b with
    | none => simp at hsome
    | some b => exact hone b hg
  | some a =>
    cases b with
    | none => exact hone a hg
    | some b => exact getLast?_operands_pair hcanonical a b hg

end OperatorTable

end Overlay
