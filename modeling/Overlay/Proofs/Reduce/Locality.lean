import Overlay.Proofs.Reduce.Merges
import Overlay.Proofs.Reduce.NormalForm
import Overlay.Proofs.Stack.DeepMerge

/-!
# Reduction goes base key by base key

Without merges with the whole tree, the entries of a base key are reduced as if they stood alone, and
a reduced tree is made up of what its base keys are reduced to, in the order in which they are first
seen. Positions in the tree are counted over all keys, but only their order at one base key matters,
and no entry that is written for one base key is written over an entry of another.
-/

namespace Overlay

namespace OperatorTable

variable (table : OperatorTable)

/-- The base key of an entry. -/
def baseOf (e : String × Value) : String := (table.identityOf e.1).base

/-- The entries of a tree at a base key. -/
def atBase (base : String) (t : Tree) : Tree := t.filter fun e => table.baseOf e == base

/-- The base keys of a tree, as they are first seen. -/
def bases (t : Tree) : List String := (t.map table.baseOf).eraseDups

variable {table} {inner : Reduction} {t u r : Tree} {base : String}

section Entries

/-- The base keys of a tree are those of its entries. -/
theorem mem_bases_iff : base ∈ table.bases t ↔ ∃ e ∈ t, table.baseOf e = base := by
  rw [bases, List.mem_eraseDups, List.mem_map]

/-- The base key of an identity of a tree is a base key of the tree. -/
theorem base_mem_bases {i : Identity} (hi : i ∈ table.identities t) : i.base ∈ table.bases t := by
  obtain ⟨e, he, rfl⟩ := List.mem_map.1 hi
  exact mem_bases_iff.2 ⟨e, he, rfl⟩

/-- What is declared at a base key is declared by the entries there. -/
theorem contentsAt_atBase (base : String) (t : Tree) :
    contentsAt (table.declared (table.atBase base t)) base = contentsAt (table.declared t) base := by
  unfold atBase baseOf
  rw [declared_filter table (fun i => i.base == base), contentsAt, contentsAt, List.filter_filter,
    List.filter_filter, List.filter_filter]
  congr 1
  apply List.filter_congr
  intro d _
  cases d.1.base == base <;> simp

/-- Nothing is declared at other base keys by the entries at one. -/
theorem basesOf_atBase (table : OperatorTable) (base : String) (t : Tree) :
    basesOf (table.declared (table.atBase base t)) =
      (basesOf (table.declared t)).filter (· == base) := by
  unfold atBase baseOf
  rw [declared_filter table (fun i => i.base == base), basesOf, basesOf, filter_eraseDups,
    List.filter_map, List.filter_filter, List.filter_filter]
  simp only [Function.comp_def, Bool.and_comm]

/-- Entries at one base key are reduced as this base key. -/
theorem reduceLevel_atBase (hroot : rootContents (table.declared (table.atBase base t)) = []) :
    table.reduceLevel inner (table.atBase base t) =
      table.reduceBase inner base (numbered (contentsAt (table.declared t) base)) := by
  have hbases := basesOf_atBase table base t
  by_cases hmem : base ∈ basesOf (table.declared t)
  · rw [List.filter_beq, List.count_eq_one_of_mem (nodup_basesOf table t) hmem] at hbases
    rw [reduceLevel_of_singleton hbases hroot, contentsAt_atBase]
  · rw [List.filter_beq, List.count_eq_zero_of_not_mem hmem] at hbases
    rw [contentsAt_eq_nil table hmem, reduceLevel_eq_entries, levelEntries_eq, hbases, hroot]
    rfl

/-- Entries at other base keys leave none at a base key. -/
theorem atBase_eq_nil (h : ∀ e ∈ t, table.baseOf e ≠ base) : table.atBase base t = [] :=
  List.filter_eq_nil_iff.2 fun e he => by simpa using h e he

/-- A base key of a tree has entries. -/
theorem atBase_ne_nil (h : base ∈ table.bases t) : table.atBase base t ≠ [] := by
  obtain ⟨e, he, rfl⟩ := mem_bases_iff.1 h
  exact List.ne_nil_of_mem (List.mem_filter.2 ⟨he, beq_self_eq_true _⟩)

/-- Entries at a base key are all kept there. -/
theorem atBase_eq_self (h : ∀ e ∈ t, table.baseOf e = base) : table.atBase base t = t :=
  List.filter_eq_self.2 fun e he => by simpa using h e he

/-- The operands of an identity come from the entries at its base key. -/
theorem operandsAt_atBase (o : Operator) (base : String) (t : Tree) :
    table.operandsAt ⟨o, base⟩ (table.atBase base t) = table.operandsAt ⟨o, base⟩ t :=
  operandsAt_filter (p := fun i => i.base == base) (beq_self_eq_true _) t

/-- A key is looked up among the entries at its base key. -/
theorem lookup_atBase (table : OperatorTable) (key : String) (t : Tree) :
    (table.atBase (table.identityOf key).base t).lookup key = t.lookup key := by
  have hkept := Tree.lookup_filter_key
    (fun k => (table.identityOf k).base == (table.identityOf key).base) t key
  rwa [if_pos (beq_self_eq_true _)] at hkept

/-- Of blocks of entries, one for each base key, the entries at a base key are its block. -/
theorem atBase_flatten {bases : List String} {f : String → Option Tree} {blocks : List Tree}
    (hnodup : bases.Nodup)
    (hf : ∀ base ∈ bases, ∀ block, f base = some block → ∀ e ∈ block, table.baseOf e = base)
    (h : bases.mapM f = some blocks) :
    ∀ base ∈ bases, f base = some (table.atBase base blocks.flatten) := by
  induction bases generalizing blocks with
  | nil => simp
  | cons first rest ih =>
    obtain ⟨block, others, hblock, hothers, rfl⟩ := mapM_cons_eq_some_iff.1 h
    obtain ⟨hnew, hrest⟩ := List.nodup_cons.1 hnodup
    have hfirst := hf first List.mem_cons_self block hblock
    have hlater : ∀ e ∈ others.flatten, table.baseOf e ∈ rest := by
      intro e he
      obtain ⟨other, hother, he⟩ := List.mem_flatten.1 he
      obtain ⟨base, hbase, hother⟩ := exists_of_mem_mapM hothers hother
      rwa [hf base (List.mem_cons_of_mem _ hbase) other hother e he]
    intro base hbase
    rw [List.flatten_cons, atBase, List.filter_append]
    change _ = some (table.atBase base block ++ table.atBase base others.flatten)
    rcases List.mem_cons.1 hbase with rfl | hbase
    · have hnone : ∀ e ∈ others.flatten, table.baseOf e ≠ base :=
        fun e he heq => hnew (heq ▸ hlater e he)
      rw [atBase_eq_self hfirst, atBase_eq_nil hnone, List.append_nil, hblock]
    · have hnone : ∀ e ∈ block, table.baseOf e ≠ base :=
        fun e he heq => hnew ((hfirst e he).symm.trans heq ▸ hbase)
      rw [atBase_eq_nil hnone, List.nil_append]
      exact ih hrest (fun b hb => hf b (List.mem_cons_of_mem _ hb)) hothers base hbase

/-- Entries that stand base key by base key are those at their base keys, as these are first seen. -/
theorem flatMap_atBase_of_grouped {bases : List String} (hnodup : bases.Nodup)
    (h : r = bases.flatMap fun base => table.atBase base r) :
    ((table.bases r).flatMap fun base => table.atBase base r) = r := by
  let kept := bases.filter fun base => !(table.atBase base r).isEmpty
  have hkept : (kept.flatMap fun base => table.atBase base r) = r := by
    rw [flatMap_filter fun base _ hnone => by simpa using hnone, ← h]
  have hbases : table.bases r = kept := by
    rw [OperatorTable.bases]
    conv_lhs => rw [← hkept]
    rw [List.map_flatMap]
    refine eraseDups_flatMap_of_nodup (hnodup.filter _) fun base hbase => ⟨?_, fun b hb => ?_⟩
    · simpa using (List.mem_filter.1 hbase).2
    · obtain ⟨e, he, rfl⟩ := List.mem_map.1 hb
      simpa using (List.mem_filter.1 he).2
  rw [hbases, hkept]

end Entries

section Level

/-- The entries of a level at a base key are what the base key is reduced to. -/
theorem reduceBase_eq_atBase {entries : Tree} (h : table.levelEntries inner t = some entries)
    (base : String) :
    table.reduceBase inner base (numbered (contentsAt (table.declared t) base)) =
      some (table.atBase base entries) := by
  have hwritten := writtenFor_levelEntries h
  rw [levelEntries_eq] at h
  obtain ⟨blocks, hblocks, rfl⟩ := Option.map_eq_some_iff.1 h
  by_cases hmem : base ∈ basesOf (table.declared t)
  · refine atBase_flatten (nodup_basesOf table t) (fun base _ block hblock e he => ?_) hblocks base hmem
    have hbase := (writtenFor_numbered hblock).base_mem _ (List.mem_map_of_mem he)
    exact List.mem_singleton.1 hbase
  · have hnone : ∀ e ∈ blocks.flatten, table.baseOf e ≠ base := fun e he heq =>
      hmem (heq ▸ hwritten.base_mem _ (List.mem_map_of_mem he))
    rw [contentsAt_eq_nil table hmem, atBase_eq_nil hnone]
    rfl

/-- Without merges with the whole tree, all identities declare something at their base keys. -/
theorem basesOf_eq_bases (h : ∀ i ∈ table.identities t, i.isRootMerge = false) :
    basesOf (table.declared t) = table.bases t := by
  have hall : ∀ i ∈ table.identities t, (!i.isRootMerge) = true := fun i hi => by simp [h i hi]
  rw [basesOf_declared, List.filter_eq_self.2 hall, identities, List.map_map]
  rfl

/-- Without merges with the whole tree, a level is reduced to its entries. -/
theorem reduceLevel_eq_levelEntries (h : ∀ i ∈ table.identities t, i.isRootMerge = false) :
    table.reduceLevel inner t = table.levelEntries inner t := by
  rw [reduceLevel_eq_entries, rootContents_eq_nil table h]
  cases table.levelEntries inner t <;> rfl

/-- A value at a plain key is reduced on its own. -/
theorem reduceLevel_plain (inner : Reduction) (base : String) (v : Value) :
    table.reduceLevel inner [((Key.plain base).encode table, v)] =
      (v.reduceWith inner).map fun w => [((Key.plain base).encode table, w)] := by
  let key := (Key.plain base).encode table
  have hidentity : table.identityOf key = ⟨.assign, base⟩ := (reduced_plain table base v).1
  have hidentities : table.identities [(key, v)] = [⟨.assign, base⟩] := by
    rw [identities, List.map_singleton, hidentity]
  have hroot : ∀ i ∈ table.identities [(key, v)], i.isRootMerge = false := by
    rw [hidentities]
    exact fun i hi => by rw [List.mem_singleton.1 hi]; rfl
  have hbases : basesOf (table.declared [(key, v)]) = [base] := by
    rw [basesOf_eq_bases hroot, bases, List.map_singleton, baseOf, hidentity]
    rfl
  have hoperands : table.operandsAt ⟨.assign, base⟩ [(key, v)] = [v] :=
    operandsAt_plain table base (some v)
  have hkinds : ∀ c ∈ contentsAt (table.declared [(key, v)]) base, c.1 = .assign := by
    intro c hc
    obtain ⟨i, hi, -, -, rfl⟩ := (mem_contentsAt_iff table).1 hc
    rw [hidentities] at hi
    rw [List.mem_singleton.1 hi]
  have hmerges : (contentsAt (table.declared [(key, v)]) base).filter (fun c => c.1.isMerge) = [] :=
    List.filter_eq_nil_iff.2 fun c hc => by simp [hkinds c hc, Operator.isMerge]
  rw [reduceLevel_of_singleton hbases (rootContents_eq_nil table hroot),
    reduceBase_of_merges (fun c hc => Or.inl (by rw [hkinds c hc]; rfl)) (hmerges ▸ List.Perm.refl _)
      List.Pairwise.nil, hoperands, List.getLast?_singleton, reducePresent]
  cases v.reduceWith inner <;> rfl

/-- Entries at a base key are entries of the tree. -/
theorem isRootMerge_atBase (h : ∀ i ∈ table.identities t, i.isRootMerge = false) (base : String) :
    ∀ i ∈ table.identities (table.atBase base t), i.isRootMerge = false := by
  intro i hi
  obtain ⟨e, he, rfl⟩ := List.mem_map.1 hi
  exact h _ (List.mem_map_of_mem (List.mem_filter.1 he).1)

variable (hroot : ∀ i ∈ table.identities t, i.isRootMerge = false)

include hroot

/-- The entries at a base key are reduced to what the tree has there when it is reduced. -/
theorem reduceLevel_atBase_of_reduceLevel (h : table.reduceLevel inner t = some r) (base : String) :
    table.reduceLevel inner (table.atBase base t) = some (table.atBase base r) := by
  rw [reduceLevel_eq_levelEntries hroot] at h
  rw [reduceLevel_atBase (rootContents_eq_nil table (isRootMerge_atBase hroot base)),
    reduceBase_eq_atBase h]

/-- A level is reduced to what its base keys are reduced to, in the order in which they are first
seen. -/
theorem reduceLevel_of_atBase {block : String → Tree} (h : ∀ base ∈ table.bases t,
      table.reduceLevel inner (table.atBase base t) = some (block base)) :
    table.reduceLevel inner t = some ((table.bases t).flatMap block) := by
  have hblocks : ∀ base ∈ table.bases t, table.reduceBase inner base
      (numbered (contentsAt (table.declared t) base)) = some (block base) := by
    intro base hbase
    rw [← reduceLevel_atBase (rootContents_eq_nil table (isRootMerge_atBase hroot base)),
      h base hbase]
  rw [reduceLevel_eq_levelEntries hroot, levelEntries_eq, basesOf_eq_bases hroot,
    mapM_eq_some_map hblocks, List.flatMap_def]
  rfl

/-- A level is reduced to one that is reduced to itself, if each of its base keys is. -/
theorem exists_reduceLevel_again (h : ∀ base ∈ table.bases t, ∃ block,
      table.reduceLevel inner (table.atBase base t) = some block ∧
        table.reduceLevel inner block = some block ∧
          ∀ i ∈ table.identities block, i.isRootMerge = false) :
    ∃ r, table.reduceLevel inner t = some r ∧ table.reduceLevel inner r = some r := by
  choose! block hblock hagain hroot' using h
  let r := (table.bases t).flatMap block
  have hr : table.reduceLevel inner t = some r := reduceLevel_of_atBase hroot hblock
  have hatBase : ∀ base ∈ table.bases t, table.atBase base r = block base := by
    intro base hbase
    have hreduced := reduceLevel_atBase_of_reduceLevel hroot hr base
    exact Option.some.inj (hreduced.symm.trans (hblock base hbase))
  have hgrouped : r = (table.bases t).flatMap fun base => table.atBase base r :=
    (List.flatMap_congr hatBase).symm
  have hfrom : ∀ e ∈ r, table.baseOf e ∈ table.bases t ∧ e ∈ block (table.baseOf e) := by
    intro e he
    obtain ⟨base, hbase, he⟩ := List.mem_flatMap.1 he
    have hsame : table.baseOf e = base := by
      rw [← hatBase base hbase] at he
      simpa using (List.mem_filter.1 he).2
    exact hsame ▸ ⟨hbase, he⟩
  have hrootAgain : ∀ i ∈ table.identities r, i.isRootMerge = false := by
    intro i hi
    obtain ⟨e, he, rfl⟩ := List.mem_map.1 hi
    obtain ⟨hbase, he⟩ := hfrom e he
    exact hroot' _ hbase _ (List.mem_map_of_mem he)
  refine ⟨r, hr, ?_⟩
  rw [reduceLevel_of_atBase hrootAgain (fun base hbase => ?_),
    flatMap_atBase_of_grouped (nodup_eraseDups _) hgrouped]
  obtain ⟨e, he, rfl⟩ := mem_bases_iff.1 hbase
  rw [hatBase _ (hfrom e he).1, hagain _ (hfrom e he).1]

end Level

section Reduces

/-- Reductions that all end do so within one depth. -/
theorem exists_depth {α : Type} {as : List α} {f g : α → Tree}
    (h : ∀ a ∈ as, table.Reduces (f a) (g a)) :
    ∃ depth, ∀ a ∈ as, table.reduceWithin depth (f a) = some (g a) := by
  induction as with
  | nil => exact ⟨0, by simp⟩
  | cons a rest ih =>
    obtain ⟨n, hn⟩ := h a List.mem_cons_self
    obtain ⟨m, hm⟩ := ih fun b hb => h b (List.mem_cons_of_mem _ hb)
    refine ⟨max n m, fun b hb => ?_⟩
    rcases List.mem_cons.1 hb with rfl | hb
    · exact reduceWithin_mono (Nat.le_max_left n m) hn
    · exact reduceWithin_mono (Nat.le_max_right n m) (hm b hb)

/-- A reduction that ends, ends one level down. -/
theorem Reduces.exists_reduceLevel (h : table.Reduces t r) :
    ∃ depth, table.reduceLevel (table.reduceWithin depth) t = some r := by
  obtain ⟨depth, h⟩ := h
  exact ⟨depth, extends_reduceWithin_succ table depth t r h⟩

/-- The entries at a base key are reduced to what the reduced tree has there. -/
theorem Reduces.atBase (hroot : ∀ i ∈ table.identities t, i.isRootMerge = false)
    (h : table.Reduces t r) (base : String) :
    table.Reduces (table.atBase base t) (table.atBase base r) := by
  obtain ⟨depth, h⟩ := h.exists_reduceLevel
  exact ⟨depth + 1, reduceLevel_atBase_of_reduceLevel hroot h base⟩

/-- A tree is reduced if each of its base keys is. -/
theorem reduces_of_atBase (hroot : ∀ i ∈ table.identities t, i.isRootMerge = false)
    {block : String → Tree}
    (h : ∀ base ∈ table.bases t, table.Reduces (table.atBase base t) (block base)) :
    table.Reduces t ((table.bases t).flatMap block) := by
  obtain ⟨depth, hdepth⟩ := exists_depth h
  refine ⟨depth + 1, reduceLevel_of_atBase hroot fun base hbase => ?_⟩
  exact extends_reduceWithin_succ table depth _ _ (hdepth base hbase)

/-- A reduced tree is made up of what it has at the base keys of the tree. -/
theorem Reduces.eq_flatMap (hroot : ∀ i ∈ table.identities t, i.isRootMerge = false)
    (h : table.Reduces t r) : r = (table.bases t).flatMap fun base => table.atBase base r :=
  h.unique (reduces_of_atBase hroot fun base _ => h.atBase hroot base)

/-- A base key whose entries can be reduced does not keep the tree from being reduced. -/
theorem exists_reduces_of_rest (hroot : ∀ i ∈ table.identities t, i.isRootMerge = false)
    (hbase : ∃ s, table.Reduces (table.atBase base t) s)
    (hrest : ∃ s, table.Reduces (t.filter fun e => table.baseOf e != base) s) :
    ∃ r, table.Reduces t r := by
  obtain ⟨s, hs⟩ := hbase
  obtain ⟨rest, hrest⟩ := hrest
  have hroot' : ∀ i ∈ table.identities (t.filter fun e => table.baseOf e != base),
      i.isRootMerge = false := by
    intro i hi
    obtain ⟨e, he, rfl⟩ := List.mem_map.1 hi
    exact hroot _ (List.mem_map_of_mem (List.mem_filter.1 he).1)
  let block (other : String) : Tree := if other = base then s else table.atBase other rest
  have hblock : ∀ other ∈ table.bases t, table.Reduces (table.atBase other t) (block other) := by
    intro other _
    by_cases hother : other = base
    · simp only [block]
      rw [if_pos hother, hother]
      exact hs
    · have hsame : table.atBase other (t.filter fun e => table.baseOf e != base) =
          table.atBase other t := by
        rw [OperatorTable.atBase, OperatorTable.atBase, List.filter_filter]
        apply List.filter_congr
        intro e _
        by_cases he : table.baseOf e = other <;> simp [he, hother]
      simp only [block]
      rw [if_neg hother, ← hsame]
      exact hrest.atBase hroot' other
  exact ⟨_, reduces_of_atBase hroot hblock⟩

end Reduces

section Rearranged

variable (h : ∀ base, table.atBase base u = table.atBase base t)

include h

/-- Trees that are the same at each base key have the same entries. -/
theorem mem_iff_of_atBase_eq (e : String × Value) : e ∈ u ↔ e ∈ t := by
  have hmem (v : Tree) : e ∈ table.atBase (table.baseOf e) v ↔ e ∈ v := by
    simp [OperatorTable.atBase]
  rw [← hmem u, ← hmem t, h]

/-- Trees that are the same at each base key have the same base keys. -/
theorem mem_bases_of_atBase_eq (base : String) : base ∈ table.bases u ↔ base ∈ table.bases t := by
  simp only [mem_bases_iff, mem_iff_of_atBase_eq h]

/-- Trees that are the same at each base key have the same identities. -/
theorem mem_identities_of_atBase_eq (i : Identity) :
    i ∈ table.identities u ↔ i ∈ table.identities t := by
  simp only [identities, List.mem_map, mem_iff_of_atBase_eq h]

end Rearranged

/-- Reduction is local to each base key: without merges with the whole tree, a tree is reduced exactly
if the entries of each base key are, and to what these are reduced to, one base key after the other as
they are first seen. So where the entries of each base key keep their order, a rearranged tree is
reduced to the same entries at each base key, and only the order of the base keys may change. -/
theorem reduction_is_local (table : OperatorTable) (t : Tree)
    (hroot : ∀ i ∈ table.identities t, i.isRootMerge = false) :
    (∀ r, table.Reduces t r ↔ ∃ block : String → Tree,
      (∀ base ∈ table.bases t, table.Reduces (table.atBase base t) (block base)) ∧
        r = (table.bases t).flatMap block) ∧
      ∀ u, (∀ base, table.atBase base u = table.atBase base t) → ∀ r, table.Reduces t r →
        (table.bases u).Perm (table.bases t) ∧
          r = (table.bases t).flatMap (fun base => table.atBase base r) ∧
            table.Reduces u ((table.bases u).flatMap fun base => table.atBase base r) := by
  constructor
  · intro r
    constructor
    · intro h
      exact ⟨fun base => table.atBase base r, fun base _ => h.atBase hroot base, h.eq_flatMap hroot⟩
    · rintro ⟨block, hblock, rfl⟩
      exact reduces_of_atBase hroot hblock
  · intro u hu r h
    have hroot' : ∀ i ∈ table.identities u, i.isRootMerge = false :=
      fun i hi => hroot i ((mem_identities_of_atBase_eq hu i).1 hi)
    have hperm : (table.bases u).Perm (table.bases t) :=
      (List.perm_ext_iff_of_nodup (nodup_eraseDups _) (nodup_eraseDups _)).2
        (mem_bases_of_atBase_eq hu)
    refine ⟨hperm, h.eq_flatMap hroot, reduces_of_atBase hroot' fun base _ => ?_⟩
    rw [hu base]
    exact h.atBase hroot base

/-- Base keys that look like markers and escapes, with operands that are left at one and custom
operands at another, are rearranged apart from each other. -/
theorem reduction_is_local_for_lookalikes :
    let table : OperatorTable := ⟨[("keep", ⟨0, fun value operands => (value, operands)⟩)], by decide⟩
    let t : Tree := [("()+b", .number (.int 1)), ("+b", .number (.int 2)), ("(keep)b", .null),
      ("*b", .number (.int 3)), ("*()+b", .number (.int 5)), ("b", .number (.int 7))]
    let u : Tree := [("+b", .number (.int 2)), ("(keep)b", .null), ("*()+b", .number (.int 5)),
      ("*b", .number (.int 3)), ("()+b", .number (.int 1)), ("b", .number (.int 7))]
    let r : Tree := [("()+b", .number (.int 1)), ("b", .number (.int 23)), ("(keep)b", .null),
      ("*()+b", .number (.int 5))]
    let s : Tree := [("b", .number (.int 23)), ("(keep)b", .null), ("*()+b", .number (.int 5)),
      ("()+b", .number (.int 1))]
    table.Reduces t r ∧ table.Reduces (table.atBase "b" t) (table.atBase "b" r) ∧
      table.Reduces u s := by
  intro table t u r s
  have hroot : ∀ i ∈ table.identities t, i.isRootMerge = false := by decide +kernel
  have hreduces : table.Reduces t r := ⟨2, by decide +kernel⟩
  have hbases : ∀ e ∈ u ++ t, table.baseOf e ∈ ["b", "+b", "()+b"] := by decide +kernel
  have hsame (base : String) : table.atBase base u = table.atBase base t := by
    by_cases hbase : base ∈ ["b", "+b", "()+b"]
    · have hall : ∀ base ∈ ["b", "+b", "()+b"], table.atBase base u = table.atBase base t := by
        decide +kernel
      exact hall base hbase
    · have hnone : ∀ e ∈ u ++ t, table.baseOf e ≠ base := fun e he heq => hbase (heq ▸ hbases e he)
      rw [atBase_eq_nil fun e he => hnone e (List.mem_append_left t he),
        atBase_eq_nil fun e he => hnone e (List.mem_append_right u he)]
  obtain ⟨-, -, hu⟩ := (reduction_is_local table t hroot).2 u hsame r hreduces
  have hs : ((table.bases u).flatMap fun base => table.atBase base r) = s := by decide +kernel
  rw [hs] at hu
  exact ⟨hreduces, hreduces.atBase hroot "b", hu⟩

end OperatorTable

end Overlay
