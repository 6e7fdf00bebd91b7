import Overlay.Proofs.Reduce.Merges
import Overlay.Proofs.Reduce.NormalForm
import Overlay.Proofs.Stack.DeepMerge

/-!
# Reducing data without operators

A tree without operators is reduced to itself, and two of them, merged and reduced, are their deep
merge. Merging leaves a collection where a tree meets another value or two others meet, and reduction
takes the last operand of it, which is what the deep merge takes.
-/

namespace Overlay

namespace OperatorTable

variable {table : OperatorTable} {inner : Reduction}

section Plain

/-- The identities of a tree are read from its keys. -/
theorem identities_eq_map_keys (table : OperatorTable) (t : Tree) :
    table.identities t = (t.map Prod.fst).map table.identityOf := by
  rw [List.map_map]
  rfl

/-- A tree whose identities are those of plain and canonical keys is reduced to these keys, each with
the reduction of its last operand. -/
theorem reduceLevel_of_plain {t : Tree} {keys : List String}
    (hkeys : ∀ key ∈ keys, Key.isCanonicalPlain table key = true)
    (hidentities : (table.identities t).eraseDups = keys.map table.identityOf)
    {value : String → Option Value} (hvalue : ∀ key ∈ keys,
      reducePresent inner (table.operandsAt (table.identityOf key) t).getLast? = some (value key)) :
    table.reduceLevel inner t =
      some (keys.flatMap fun key => (value key).toList.map fun v => (key, v)) := by
  have hread {key : String} (hkey : key ∈ keys) :
      table.identityOf key = ⟨.assign, (Key.parse table key).base⟩ :=
    (Key.identity_of_isCanonicalPlain (hkeys key hkey)).1
  have hassign : ∀ i ∈ table.identities t, i.operator = .assign := by
    intro i hi
    rw [← List.mem_eraseDups, hidentities] at hi
    obtain ⟨key, hkey, rfl⟩ := List.mem_map.1 hi
    rw [hread hkey]
  have hroot : ∀ i ∈ table.identities t, i.isRootMerge = false := by
    intro i hi
    rw [Identity.isRootMerge, hassign i hi]
    rfl
  have hrootContents := rootContents_eq_nil table hroot
  have hbases : basesOf (table.declared t) = keys.map fun key => (Key.parse table key).base := by
    have hmapped : (table.identities t).eraseDups.map Identity.base =
        keys.map fun key => (Key.parse table key).base := by
      rw [hidentities, List.map_map]
      rfl
    have hnodup : ((table.identities t).eraseDups.map Identity.base).Nodup := by
      refine (nodup_eraseDups _).map_on fun i hi j hj hbase => Identity.ext ?_ hbase
      rw [hassign i (List.mem_eraseDups.1 hi), hassign j (List.mem_eraseDups.1 hj)]
    rw [basesOf_declared, List.filter_eq_self.2 fun i hi => by simp [hroot i hi],
      ← eraseDups_map_eraseDups, eraseDups_of_nodup hnodup, hmapped]
  have hbase : ∀ key ∈ keys, table.reduceBase inner (Key.parse table key).base
      (numbered (contentsAt (table.declared t) (Key.parse table key).base)) =
        some ((value key).toList.map fun v => (key, v)) := by
    intro key hkey
    have hkinds : ∀ c ∈ contentsAt (table.declared t) (Key.parse table key).base,
        c.1 = .assign := by
      intro c hc
      obtain ⟨i, hi, -, -, rfl⟩ := (mem_contentsAt_iff table).1 hc
      exact hassign i hi
    have hmerges : ((contentsAt (table.declared t) (Key.parse table key).base).filter
        fun c => c.1.isMerge).Perm [] := by
      rw [List.filter_eq_nil_iff.2 fun c hc => by simp [hkinds c hc, Operator.isMerge]]
    rw [reduceBase_of_merges (fun c hc => Or.inl (by rw [hkinds c hc]; rfl)) hmerges .nil,
      ← hread hkey, hvalue key hkey, Option.bind_some,
      Key.encode_base_of_isCanonicalPlain (hkeys key hkey)]
    rfl
  have hentries : table.levelEntries inner t =
      some (keys.flatMap fun key => (value key).toList.map fun v => (key, v)) := by
    rw [levelEntries_eq, hbases, List.mapM_map, List.flatMap_def]
    exact congrArg (Option.map List.flatten) (mapM_eq_some_map hbase)
  rw [reduceLevel_eq_entries, hentries, hrootContents]
  rfl

/-- The keys of a tree without operators have distinct identities. -/
theorem nodup_identities_of_operatorFree {t : Tree} (ht : t.OperatorFree table) :
    (table.identities t).Nodup := by
  rw [identities_eq_map_keys]
  refine ht.distinct.map_on fun key hkey key' hkey' heq => ?_
  obtain ⟨e, he, rfl⟩ := List.mem_map.1 hkey
  obtain ⟨e', he', rfl⟩ := List.mem_map.1 hkey'
  exact Key.eq_of_isCanonicalPlain (ht.canonical e he) (ht.canonical e' he') heq

/-- A tree without operators is reduced to itself, if the values in it are. -/
theorem reduceLevel_of_operatorFree {t : Tree} (ht : t.OperatorFree table)
    (hvalues : ∀ e ∈ t, e.2.reduceWith inner = some e.2) : table.reduceLevel inner t = some t := by
  have hcanonical : ∀ key ∈ t.map Prod.fst, Key.isCanonicalPlain table key = true := by
    intro key hkey
    obtain ⟨e, he, rfl⟩ := List.mem_map.1 hkey
    exact ht.canonical e he
  have hidentities : (table.identities t).eraseDups = (t.map Prod.fst).map table.identityOf := by
    rw [eraseDups_of_nodup (nodup_identities_of_operatorFree ht), identities_eq_map_keys]
  have hvalue : ∀ key ∈ t.map Prod.fst, reducePresent inner
      (table.operandsAt (table.identityOf key) t).getLast? = some (t.lookup key) := by
    intro key hkey
    obtain ⟨value, hvalue⟩ := Option.isSome_iff_exists.1 (Tree.lookup_isSome_iff_mem.2 hkey)
    have hself := hvalues _ ((Tree.lookup_eq_some_iff_mem ht.distinct).1 hvalue)
    rw [operandsAt_of_operatorFree ht (hcanonical key hkey), hvalue]
    exact congrArg (Option.map some) hself
  rw [reduceLevel_of_plain hcanonical hidentities hvalue, ← Tree.eq_flatMap_keys ht.distinct]

/-- A merge of trees without operators is reduced to their deep merge, if what the values at each key
make is reduced to the deep merge of the values. -/
theorem reduceLevel_mergeEntries {lower upper : Tree} (hlower : lower.OperatorFree table)
    (hupper : upper.OperatorFree table)
    (hvalues : ∀ key,
      reducePresent inner ((lower.lookup key).merge table.mergeValues (upper.lookup key)) =
        some ((lower.lookup key).merge Value.deepMerge (upper.lookup key))) :
    table.reduceLevel inner (table.mergeEntries (lower ++ upper)) =
      some (lower.deepMerge upper) := by
  have hcanonical : ∀ key ∈ ((lower ++ upper).map Prod.fst).eraseDups,
      Key.isCanonicalPlain table key = true := by
    intro key hkey
    obtain ⟨e, he, rfl⟩ := List.mem_map.1 (List.mem_eraseDups.1 hkey)
    exact (List.mem_append.1 he).elim (hlower.canonical e) (hupper.canonical e)
  have hidentities : (table.identities (table.mergeEntries (lower ++ upper))).eraseDups =
      ((lower ++ upper).map Prod.fst).eraseDups.map table.identityOf := by
    rw [identities_mergeEntries, eraseDups_eraseDups, identities_eq_map_keys]
    exact eraseDups_map_of_injOn fun key hkey key' hkey' => Key.eq_of_isCanonicalPlain
      (hcanonical key (List.mem_eraseDups.2 hkey)) (hcanonical key' (List.mem_eraseDups.2 hkey'))
  have hvalue : ∀ key ∈ ((lower ++ upper).map Prod.fst).eraseDups, reducePresent inner
      (table.operandsAt (table.identityOf key) (table.mergeEntries (lower ++ upper))).getLast? =
        some ((lower.deepMerge upper).lookup key) := by
    intro key hkey
    rw [getLast?_operandsAt_mergeEntries hlower hupper (List.mem_eraseDups.1 hkey),
      Tree.lookup_deepMerge, hvalues key]
  have hkeys := Tree.keys_deepMerge hlower.distinct hupper.distinct
  have hdistinct := (hlower.deepMerge hupper).distinct
  rw [reduceLevel_of_plain hcanonical hidentities hvalue, ← hkeys,
    ← Tree.eq_flatMap_keys hdistinct]

end Plain

section Depth

/-- A tree without operators is reduced to itself. -/
theorem reduceWithin_of_operatorFree {depth : Nat} {t : Tree} (ht : t.OperatorFree table)
    (hdepth : t.weight < depth) : table.reduceWithin depth t = some t := by
  induction depth generalizing t with
  | zero => omega
  | succ depth ih =>
    refine reduceLevel_of_operatorFree ht fun e he => ?_
    obtain ⟨key, value⟩ := e
    cases value with
    | tree u =>
      have hlighter := Tree.weight_lt_of_mem he
      rw [Value.weight] at hlighter
      have hself := ih (isOperatorFree_tree_iff.1 (ht.values _ he)) (by omega)
      rw [Value.reduceWith, hself]
      rfl
    | _ => rfl

/-- A value without operators is reduced to itself. -/
theorem reduceWith_of_operatorFree {depth : Nat} {value : Value}
    (hvalue : value.isOperatorFree table = true) (hdepth : value.weight ≤ depth) :
    value.reduceWith (table.reduceWithin depth) = some value := by
  cases value with
  | tree t =>
    rw [Value.weight] at hdepth
    rw [Value.reduceWith, reduceWithin_of_operatorFree (isOperatorFree_tree_iff.1 hvalue) (by omega)]
    rfl
  | _ => rfl

/-- A merge of trees without operators is reduced to their deep merge. -/
theorem reduceWithin_mergeEntries {depth : Nat} {lower upper : Tree}
    (hlower : lower.OperatorFree table) (hupper : upper.OperatorFree table)
    (hdepth : lower.weight + upper.weight < depth) :
    table.reduceWithin depth (table.mergeEntries (lower ++ upper)) =
      some (lower.deepMerge upper) := by
  induction depth generalizing lower upper with
  | zero => omega
  | succ depth ih =>
    -- The induction is on the depth: what meets at a key weighs less than both trees together.
    refine reduceLevel_mergeEntries hlower hupper fun key => ?_
    have hlight {t : Tree} (ht : t.OperatorFree table) :
        ∀ value ∈ t.lookup key, value.isOperatorFree table = true ∧ value.weight < t.weight :=
      fun value hvalue => ⟨ht.of_lookup value hvalue,
        Tree.weight_lt_of_mem ((Tree.lookup_eq_some_iff_mem ht.distinct).1 hvalue)⟩
    have hbelow := hlight hlower
    have habove := hlight hupper
    have hself {value : Value} (h : value.isOperatorFree table = true)
        (hdepth : value.weight ≤ depth) :
        reducePresent (table.reduceWithin depth) (some value) = some (some value) :=
      congrArg (Option.map some) (reduceWith_of_operatorFree h hdepth)
    generalize lower.lookup key = a at hbelow ⊢
    generalize upper.lookup key = b at habove ⊢
    cases a with
    | none =>
      cases b with
      | none => rfl
      | some b =>
        obtain ⟨hb, hlighter⟩ := habove b rfl
        exact hself hb (by omega)
    | some a =>
      obtain ⟨ha, hlighter⟩ := hbelow a rfl
      cases b with
      | none => exact hself ha (by omega)
      | some b =>
        obtain ⟨hb, hlighter'⟩ := habove b rfl
        rw [Option.merge_some_some, Option.merge_some_some]
        unfold mergeValues Value.deepMerge
        split
        · next l u =>
          rw [Value.weight] at hlighter hlighter'
          have hmerged := ih (isOperatorFree_tree_iff.1 ha) (isOperatorFree_tree_iff.1 hb) (by omega)
          rw [reducePresent, Value.reduceWith, hmerged]
          rfl
        · exact hself hb (by omega)

end Depth

end OperatorTable

end Overlay
