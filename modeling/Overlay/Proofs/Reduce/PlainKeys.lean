import Overlay.Plain
import Overlay.Proofs.Reduce.Locality
import Overlay.Proofs.Reduce.OperatorFree
import Overlay.Proofs.Reduce.Termination

/-!
# Trees with plain keys

Where all keys are plain there is nothing to apply. A reduction takes the last value of each base key, at
the place where the base key is first seen, and writes the key canonically; the plain part does the same
and writes the base key as it is. So the plain part of a tree is the plain part of its reduction, however
the keys are spelled.

Where moreover every key is canonical and stands once, stacking and reduction change nothing. The plain
part then changes the keys with an escape alone.
-/

namespace Overlay

mutual

/-- Test all keys in a value, at every depth outside arrays. -/
def Value.everyKey (p : String → Bool) : Value → Bool
  | .tree entries => Tree.everyKey p entries
  | _ => true

/-- Test all keys of a tree and of the trees in it, at every depth outside arrays. -/
def Tree.everyKey (p : String → Bool) : Tree → Bool
  | [] => true
  | (key, value) :: rest => p key && value.everyKey p && Tree.everyKey p rest

end

namespace Tree

variable {p : String → Bool} {t : Tree}

/-- All keys pass a test if those of the tree and those in its values do. -/
theorem everyKey_iff : t.everyKey p = true ↔ ∀ e ∈ t, p e.1 = true ∧ e.2.everyKey p = true := by
  induction t with
  | nil => simp [everyKey]
  | cons e rest ih => simp [everyKey, ih]

section Written

/-- Writing a value amends the entry of its key. -/
theorem insert_eq_amend (key : String) (value : Value) (t : Tree) :
    insert key value t = amend (fun e => e.1 == key) (fun e => (e.1, value)) (key, value) t := by
  induction t with
  | nil => rfl
  | cons e rest ih =>
    rw [insert, amend, ih]
    by_cases hkey : e.1 = key <;> simp [hkey]

/-- The value of the last entry. -/
def lastValue (entries : Tree) : Value := (entries.map Prod.snd).getLast?.getD .null

/-- The last of the values is the value of the last entry. -/
theorem getLast?_values {entries : Tree} (h : entries ≠ []) :
    (entries.map Prod.snd).getLast? = some (lastValue entries) := by
  rw [lastValue, List.getLast?_map, List.getLast?_eq_some_getLast h]
  rfl

/-- Entries have a last value among theirs. -/
theorem exists_mem_lastValue {entries : Tree} (h : entries ≠ []) :
    ∃ e ∈ entries, e.2 = lastValue entries :=
  List.mem_map.1 (List.mem_of_getLast? (getLast?_values h))

/-- The last value is changed as the values are. -/
theorem lastValue_map {entries : Tree} (h : entries ≠ []) (key : String × Value → String)
    (change : Value → Value) :
    lastValue (entries.map fun e => (key e, change e.2)) = change (lastValue entries) := by
  have hvalues : (entries.map fun e => (key e, change e.2)).map Prod.snd =
      (entries.map Prod.snd).map change := by
    rw [List.map_map, List.map_map]
    rfl
  rw [lastValue, hvalues, List.getLast?_map, getLast?_values h]
  rfl

/-- Writing entries leaves one for each key, where the key is first seen, with the value that is written
last. -/
theorem ofEntries_eq_map (entries : Tree) :
    ofEntries entries = (entries.map Prod.fst).eraseDups.map fun key =>
      (key, lastValue (entries.filter fun e => e.1 == key)) := by
  unfold ofEntries
  simp only [insert_eq_amend]
  exact foldl_amend_eq_map Prod.fst Prod.fst id (fun e f => (f.1, e.2))
    (fun key entries => (key, lastValue entries)) (fun _ _ => rfl) (fun _ => rfl)
    (fun e key entries _ => by simp [lastValue]) entries

end Written

end Tree

namespace Key

variable {table : OperatorTable} {raw : String}

/-- A plain key is read as the plain identity of its base key, without spread. -/
theorem identity_of_isPlain (h : (parse table raw).isPlain = true) :
    (parse table raw).identity = ⟨.assign, (parse table raw).base⟩ ∧
      (parse table raw).spread = false := by
  obtain ⟨hoperator, -, hspread⟩ := agrees_iff.1 (agrees_plain h)
  exact ⟨Identity.ext hoperator rfl, hspread⟩

/-- What a base key is written as is plain and canonical, and read back as the base key. -/
theorem isCanonicalPlain_encode (table : OperatorTable) (base : String) :
    isCanonicalPlain table ((plain base).encode table) = true ∧
      (parse table ((plain base).encode table)).base = base := by
  have hwritable : (plain base).Writable table := trivial
  obtain ⟨hidentity, hspread⟩ := identity_parse_encode hwritable
  obtain ⟨hoperator, hbase⟩ := Identity.mk.inj hidentity
  refine ⟨isCanonicalPlain_iff.2 ⟨?_, encode_parse_encode hwritable⟩, hbase⟩
  rw [isPlain, hoperator, hspread]
  rfl

/-- A plain key is its own base key unless it has an escape. -/
theorem base_eq_iff_of_isPlain (h : (parse table raw).isPlain = true) :
    (parse table raw).base = raw ↔ (parse table raw).literal = false := by
  obtain ⟨hidentity, hspread⟩ := identity_of_isPlain h
  have hoperator : (parse table raw).operator = .assign := congrArg Identity.operator hidentity
  have hspells := spells_ofChars table raw.toList
  change Spells table (parse table raw) raw.toList at hspells
  rw [← String.toList_inj]
  generalize parse table raw = k at hoperator hspread hspells ⊢
  generalize raw.toList = text at hspells ⊢
  cases hspells with
  | bare spread base =>
    obtain rfl : spread = false := hspread
    simp
  | marked hmarked =>
    cases hmarked with
    | literal spread base =>
      obtain rfl : spread = false := hspread
      have hlonger : base ≠ '(' :: ')' :: base := by
        intro heq
        have hlength := congrArg List.length heq
        simp only [List.length_cons] at hlength
        omega
      simpa using hlonger
    | operator spread hm => cases hm <;> simp at hoperator

end Key

namespace OperatorTable

variable {table : OperatorTable} {t : Tree}

section Level

/-- The plain part of entries has the plain ones, under their base keys. -/
theorem plainEntries_eq_map (table : OperatorTable) (t : Tree) :
    table.plainEntries t = (t.filter fun e => (Key.parse table e.1).isPlain).map fun e =>
      (table.baseOf e, table.plainValuePart e.2) := by
  induction t with
  | nil => rfl
  | cons e rest ih =>
    obtain ⟨key, value⟩ := e
    simp only [plainEntries, ih]
    cases hplain : (Key.parse table key).isPlain <;> simp [hplain, baseOf, identityOf, Key.identity]

variable (hplain : ∀ e ∈ t, (Key.parse table e.1).isPlain = true)

include hplain

/-- The plain part of entries with plain keys has all of them. -/
theorem plainPart_of_isPlain : table.plainPart t =
    Tree.ofEntries (t.map fun e => (table.baseOf e, table.plainValuePart e.2)) := by
  rw [plainPart, plainEntries_eq_map, List.filter_eq_self.2 hplain]

/-- The plain part of plain keys for distinct base keys goes entry by entry. -/
theorem plainPart_of_nodup (h : (t.map table.baseOf).Nodup) :
    table.plainPart t = t.map fun e => (table.baseOf e, table.plainValuePart e.2) := by
  rw [plainPart_of_isPlain hplain, Tree.ofEntries_of_nodup]
  rwa [List.map_map]

/-- The plain part of plain keys has the last value of each base key. -/
theorem plainPart_eq_map : table.plainPart t = (table.bases t).map fun base =>
    (base, table.plainValuePart (Tree.lastValue (table.atBase base t))) := by
  rw [plainPart_of_isPlain hplain, Tree.ofEntries_eq_map, List.map_map]
  refine List.map_congr_left fun base (hbase : base ∈ table.bases t) => ?_
  rw [List.filter_map]
  exact congrArg (Prod.mk base)
    (Tree.lastValue_map (atBase_ne_nil hbase) table.baseOf table.plainValuePart)

/-- The identities of plain keys are those of their base keys. -/
theorem identities_of_isPlain :
    table.identities t = (t.map table.baseOf).map fun base => ⟨.assign, base⟩ := by
  rw [List.map_map]
  exact List.map_congr_left fun e he => (Key.identity_of_isPlain (hplain e he)).1

/-- Plain keys give their values as operands. -/
theorem operandsAt_of_isPlain (base : String) :
    table.operandsAt ⟨.assign, base⟩ t = (table.atBase base t).map Prod.snd := by
  have hpicked : (t.filter fun e => table.identityOf e.1 == ⟨.assign, base⟩) =
      table.atBase base t := by
    refine List.filter_congr fun e he => ?_
    have hidentity : table.identityOf e.1 = ⟨.assign, table.baseOf e⟩ :=
      (Key.identity_of_isPlain (hplain e he)).1
    rw [hidentity, Bool.eq_iff_iff, beq_iff_eq, beq_iff_eq, Identity.mk.injEq]
    exact and_iff_right rfl
  have hoperands : ∀ e ∈ table.atBase base t, (Contribution.ofEntry table e).operands = [e.2] := by
    intro e he
    rw [Contribution.operands, Contribution.ofEntry,
      (Key.identity_of_isPlain (hplain e (List.mem_filter.1 he).1)).2]
    rfl
  rw [operandsAt_eq_flatMap, hpicked, List.flatMap_congr hoperands, List.map_eq_flatMap]

variable {inner : Reduction}

/-- A tree with plain keys is reduced to its base keys as they are first seen, each with the reduction of
its last value. -/
theorem reduceLevel_of_isPlain {reduced : String → Value} (hreduced : ∀ base ∈ table.bases t,
      (Tree.lastValue (table.atBase base t)).reduceWith inner = some (reduced base)) :
    table.reduceLevel inner t =
      some ((table.bases t).map fun base => ((Key.plain base).encode table, reduced base)) := by
  have hread (base : String) :
      table.identityOf ((Key.plain base).encode table) = ⟨.assign, base⟩ :=
    (reduced_plain table base .null).1
  have hcanonical : ∀ key ∈ (table.bases t).map fun base => (Key.plain base).encode table,
      Key.isCanonicalPlain table key = true := by
    intro key hkey
    obtain ⟨base, -, rfl⟩ := List.mem_map.1 hkey
    exact (Key.isCanonicalPlain_encode table base).1
  have hidentities : (table.identities t).eraseDups =
      ((table.bases t).map fun base => (Key.plain base).encode table).map table.identityOf := by
    have hwritten : ((table.bases t).map fun base => (Key.plain base).encode table).map
        table.identityOf = (table.bases t).map fun base => ⟨.assign, base⟩ := by
      rw [List.map_map]
      exact List.map_congr_left fun base _ => hread base
    rw [identities_of_isPlain hplain, hwritten]
    exact eraseDups_map_of_injOn fun base _ base' _ heq => congrArg Identity.base heq
  have hvalue : ∀ key ∈ (table.bases t).map fun base => (Key.plain base).encode table,
      reducePresent inner (table.operandsAt (table.identityOf key) t).getLast? =
        some (some (reduced (Key.parse table key).base)) := by
    intro key hkey
    obtain ⟨base, hbase, rfl⟩ := List.mem_map.1 hkey
    rw [hread, operandsAt_of_isPlain hplain, Tree.getLast?_values (atBase_ne_nil hbase),
      (Key.isCanonicalPlain_encode table base).2]
    exact congrArg (Option.map some) (hreduced base hbase)
  rw [reduceLevel_of_plain hcanonical hidentities hvalue, List.flatMap_map, List.map_eq_flatMap]
  simp only [(Key.isCanonicalPlain_encode table _).2]
  rfl

/-- A tree with plain keys is reduced to one with the same plain part, if the values in it are. -/
theorem exists_reduceLevel_plainPart (hvalues : ∀ e ∈ t, ∃ w, e.2.reduceWith inner = some w ∧
      table.plainValuePart w = table.plainValuePart e.2) :
    ∃ r, table.reduceLevel inner t = some r ∧ table.plainPart r = table.plainPart t := by
  have hlast : ∀ base, ∃ w, base ∈ table.bases t →
      (Tree.lastValue (table.atBase base t)).reduceWith inner = some w ∧
        table.plainValuePart w = table.plainValuePart (Tree.lastValue (table.atBase base t)) := by
    intro base
    by_cases hbase : base ∈ table.bases t
    · obtain ⟨e, he, hvalue⟩ := Tree.exists_mem_lastValue (atBase_ne_nil hbase)
      obtain ⟨w, hw⟩ := hvalues e (List.mem_filter.1 he).1
      exact ⟨w, fun _ => hvalue ▸ hw⟩
    · exact ⟨.null, fun h => absurd h hbase⟩
  choose reduced hreduced using hlast
  refine ⟨_, reduceLevel_of_isPlain hplain fun base hbase => (hreduced base hbase).1, ?_⟩
  have hbaseOf (base : String) (v : Value) :
      table.baseOf ((Key.plain base).encode table, v) = base :=
    (Key.isCanonicalPlain_encode table base).2
  have hwritten : ∀ e ∈ (table.bases t).map
      fun base => ((Key.plain base).encode table, reduced base),
      (Key.parse table e.1).isPlain = true := by
    intro e he
    obtain ⟨base, -, rfl⟩ := List.mem_map.1 he
    exact (Key.isCanonicalPlain_iff.1 (Key.isCanonicalPlain_encode table base).1).1
  have hdistinct : (((table.bases t).map
      fun base => ((Key.plain base).encode table, reduced base)).map table.baseOf).Nodup := by
    rw [List.map_map]
    simp only [Function.comp_def, hbaseOf, List.map_id']
    exact nodup_eraseDups _
  rw [plainPart_of_nodup hwritten hdistinct, plainPart_eq_map hplain, List.map_map]
  refine List.map_congr_left fun base hbase => ?_
  rw [Function.comp_apply, hbaseOf, (hreduced base hbase).2]

end Level

section Depth

/-- A value with plain keys only is reduced to one with the same plain part. -/
theorem exists_reduceWith_plainPart {depth : Nat} {value : Value}
    (hplain : value.everyKey (fun key => (Key.parse table key).isPlain) = true)
    (hdepth : value.weight ≤ depth) :
    ∃ w, value.reduceWith (table.reduceWithin depth) = some w ∧
      table.plainValuePart w = table.plainValuePart value := by
  induction depth generalizing value with
  | zero => exact absurd value.weight_pos (by omega)
  | succ depth ih =>
    cases value with
    | tree t =>
      have hentries := Tree.everyKey_iff.1 hplain
      rw [Value.weight] at hdepth
      obtain ⟨r, hr, hpart⟩ := exists_reduceLevel_plainPart (fun e he => (hentries e he).1)
        fun e he => ih (hentries e he).2 (by have := Tree.weight_lt_of_mem he; omega)
      exact ⟨.tree r, congrArg (Option.map Value.tree) hr, congrArg Value.tree hpart⟩
    | _ => exact ⟨_, rfl, rfl⟩

/-- The values of a tree with plain keys weigh no more than the tree when it is stacked. -/
theorem weight_le_stack (hplain : ∀ e ∈ t, (Key.parse table e.1).isPlain = true)
    {e : String × Value} (he : e ∈ t) : e.2.weight ≤ (table.stack [t]).weight := by
  have hoperand : e.2 ∈ table.operandsAt ⟨.assign, table.baseOf e⟩ (table.stack [t]) := by
    rw [operandsAt_stack, List.flatten_singleton, operandsAt_of_isPlain hplain]
    exact List.mem_map_of_mem (List.mem_filter.2 ⟨he, beq_self_eq_true _⟩)
  calc
    e.2.weight ≤ Value.weightOfItems (table.operandsAt ⟨.assign, table.baseOf e⟩ (table.stack [t])) :=
      weight_le_weightOfItems hoperand
    _ ≤ Operands.weight (table.operandsAt ⟨.assign, table.baseOf e⟩ (table.stack [t])) :=
      weightOfItems_le_weight _
    _ ≤ Tree.weight ((table.stack [t]).filter
        fun f => table.identityOf f.1 == ⟨.assign, table.baseOf e⟩) := weight_operandsAt_le table _ _
    _ ≤ (table.stack [t]).weight := by
      have hsplit := Tree.weight_filter_add_filter_not
        (fun f => table.identityOf f.1 == ⟨.assign, table.baseOf e⟩) (table.stack [t])
      omega

end Depth

/-- The two ways to plain data agree: where all keys are plain, however they are spelled, the plain part of
the reduced tree is the plain part of the tree itself. -/
theorem plain_part_of_reduced (table : OperatorTable) (t : Tree)
    (hplain : t.everyKey (fun key => (Key.parse table key).isPlain) = true) :
    table.reduceLayersToPlain [t] = some (table.plainPart t) := by
  have hentries := Tree.everyKey_iff.1 hplain
  have htop : ∀ e ∈ t, (Key.parse table e.1).isPlain = true := fun e he => (hentries e he).1
  obtain ⟨depth, hdepth⟩ : ∃ depth, (table.stack [t]).weight + spareDepth =
      (table.stack [t]).weight + depth + 1 := ⟨spareDepth - 1, by unfold spareDepth; omega⟩
  have hvalues : ∀ e ∈ t, ∃ w,
      e.2.reduceWith (table.reduceWithin ((table.stack [t]).weight + depth)) = some w ∧
        table.plainValuePart w = table.plainValuePart e.2 := fun e he =>
    exists_reduceWith_plainPart (hentries e he).2 (Nat.le_add_right_of_le (weight_le_stack htop he))
  obtain ⟨r, hr, hpart⟩ := exists_reduceLevel_plainPart htop hvalues
  have hstacked : table.reduceLayers [t] = some r := by
    have hsame := sameOperands_stack table [t]
    rw [List.flatten_singleton] at hsame
    rw [reduceLayers, reduce, hdepth, ← reduceWithin_congr hsame]
    exact hr
  rw [reduceLayersToPlain, hstacked, Option.map_some, hpart]

/-- Two spellings of each of two base keys, with trees and scalars at them, and an escape below. -/
theorem plain_part_of_reduced_spellings :
    let table : OperatorTable := ⟨[("pow", ⟨5, fun value operands => (value, operands)⟩)], by decide⟩
    let t : Tree := [("a", .tree [("x", .null)]), ("()(pow)b", .bool true),
      ("()a", .tree [("()*y", .tree [("()x", .null), ("x", .array [.tree [("+x", .null)]])])]),
      ("(note)", .string "n"), ("()(note)", .number (.int 2))]
    let plain : Tree := [("a", .tree [("*y", .tree [("x", .array [.tree [("+x", .null)]])])]),
      ("(pow)b", .bool true), ("(note)", .number (.int 2))]
    t.everyKey (fun key => (Key.parse table key).isPlain) = true ∧
      table.reduceLayersToPlain [t] = some plain := by
  intro table t plain
  have hplain : t.everyKey (fun key => (Key.parse table key).isPlain) = true := by decide +kernel
  have hpart : table.plainPart t = plain := by decide +kernel
  exact ⟨hplain, hpart ▸ plain_part_of_reduced table t hplain⟩

section Fixed

/-- A value without operators is its own plain part exactly if no key in it has an escape. -/
theorem plainValuePart_eq_self_iff {value : Value} (hfree : value.isOperatorFree table = true) :
    table.plainValuePart value = value ↔
      value.everyKey (fun key => !(Key.parse table key).literal) = true := by
  -- The induction is on the weight, since the values of a tree weigh less than the tree.
  induction hweight : value.weight using Nat.strongRecOn generalizing value with
  | ind n ih =>
    cases value with
    | tree t =>
      have ht := isOperatorFree_tree_iff.1 hfree
      have hplain : ∀ e ∈ t, (Key.parse table e.1).isPlain = true :=
        fun e he => (Key.isCanonicalPlain_iff.1 (ht.canonical e he)).1
      have hdistinct : (t.map table.baseOf).Nodup := by
        have hidentities := nodup_identities_of_operatorFree ht
        rw [identities_of_isPlain hplain] at hidentities
        exact hidentities.of_map
      have hentry : ∀ e ∈ t, ((table.baseOf e, table.plainValuePart e.2) = e ↔
          (!(Key.parse table e.1).literal) = true ∧
            e.2.everyKey (fun key => !(Key.parse table key).literal) = true) := by
        intro e he
        have hlighter := Tree.weight_lt_of_mem he
        rw [Value.weight] at hweight
        have hvalue := ih e.2.weight (by omega) (ht.values e he) rfl
        rw [Prod.ext_iff, hvalue, Bool.not_eq_true', ← Key.base_eq_iff_of_isPlain (hplain e he)]
        rfl
      have hpart : table.plainValuePart (.tree t) = .tree (table.plainPart t) := rfl
      rw [hpart, plainPart_of_nodup hplain hdistinct, Value.tree.injEq, Value.everyKey,
        Tree.everyKey_iff]
      conv_lhs => rhs; rw [← List.map_id t]
      rw [List.map_inj_left]
      exact forall₂_congr hentry
    | _ => exact iff_of_true rfl rfl

end Fixed

/-- Plain data stays as it is: a tree in which all keys are plain and canonical, and each stands once, is
stacked and reduced to itself, and is its own plain part exactly if none of its keys has an escape. -/
theorem plain_trees_are_fixed (table : OperatorTable) (t : Tree) (ht : t.OperatorFree table) :
    table.stack [t] = t ∧ table.reduceLayers [t] = some t ∧
      (table.plainPart t = t ↔ t.everyKey (fun key => !(Key.parse table key).literal) = true) := by
  have hstack : table.stack [t] = t := stack_singleton_of_nodup table (nodup_identities_of_operatorFree ht)
  refine ⟨hstack, ?_, ?_⟩
  · rw [reduceLayers, hstack, reduce]
    exact reduceWithin_of_operatorFree ht (by unfold spareDepth; omega)
  · have hvalue := plainValuePart_eq_self_iff (isOperatorFree_tree_iff.2 ht)
    rwa [Value.everyKey, show table.plainValuePart (.tree t) = .tree (table.plainPart t) from rfl,
      Value.tree.injEq] at hvalue

/-- Keys that are plain only as long as they name no custom operator, and one whose escape is needed for
this. -/
theorem plain_trees_are_fixed_beside_custom_operators :
    let table : OperatorTable := ⟨[("pow", ⟨5, fun value operands => (value, operands)⟩)], by decide⟩
    let t : Tree := [("<x", .tree [("(note)a", .null), ("()(pow)a", .number (.int 1))]), ("", .string "s"),
      ("()*.kfg", .array [.tree [("+a", .null)]])]
    t.OperatorFree table ∧ table.stack [t] = t ∧ table.reduceLayers [t] = some t ∧
      table.plainPart t ≠ t := by
  intro table t
  have ht : t.OperatorFree table := isOperatorFree_tree_iff.1 (by decide +kernel)
  obtain ⟨hstack, hreduce, hpart⟩ := plain_trees_are_fixed table t ht
  exact ⟨ht, hstack, hreduce, mt hpart.1 (by decide +kernel)⟩

end OperatorTable

end Overlay
