import Mathlib.Data.List.Sort
import Overlay.Proofs.Reduce.ClosedForm

/-!
# What custom operators come to

Where a base key has nothing but values and custom operators, each custom operator is applied once, to
all its operands, in the order of priority. Operators of the same priority go by the place at which they
are first seen in the layers, so the order is that of a stable sort. The operands that an operator leaves
are read back from the reduced tree as they were left, be there none, one or several, and an array among
them is still one operand.
-/

namespace Overlay

namespace Operator

/-- Test for a custom operator. -/
def isCustom : Operator → Bool
  | custom _ => true
  | _ => false

/-- A custom operator has a name. -/
theorem exists_name_of_isCustom {o : Operator} (h : o.isCustom = true) : ∃ name, o = custom name := by
  cases o with
  | custom name => exact ⟨name, rfl⟩
  | _ => exact absurd h Bool.false_ne_true

/-- Of the plain operator and custom operators, the custom ones are applied. -/
theorem isApplied_eq_isCustom {o : Operator} (h : o = assign ∨ o.isCustom = true) :
    o.isApplied = o.isCustom ∧ o.isMergeBelow = false := by
  rcases h with rfl | h
  · exact ⟨rfl, rfl⟩
  · obtain ⟨name, rfl⟩ := exists_name_of_isCustom h
    exact ⟨rfl, rfl⟩

end Operator

section Ordering

variable {place : Application → Place} {as : List Application}

/-- Inserting by places is inserting by priorities, if the places do not break a tie otherwise. -/
theorem insertByPlace_eq_orderedInsert (priority : Application → Int) {a : Application}
    (h : ∀ b ∈ as, (place a).notAfter (place b) = true ↔ priority a ≤ priority b) :
    insertByPlace place a as = as.orderedInsert (fun a b => priority a ≤ priority b) a := by
  induction as with
  | nil => rfl
  | cons b rest ih =>
    rw [insertByPlace, List.orderedInsert, ih fun c hc => h c (List.mem_cons_of_mem _ hc)]
    simp only [h b List.mem_cons_self]

/-- Ordering by places is a stable sort by priorities, if ties go by the order of the list. -/
theorem orderByPlace_eq_insertionSort (priority : Application → Int) (h : as.Pairwise fun a b =>
      (place a).notAfter (place b) = true ↔ priority a ≤ priority b) :
    orderByPlace place as = as.insertionSort fun a b => priority a ≤ priority b := by
  induction h with
  | nil => rfl
  | @cons a rest ha _ ih =>
    rw [orderByPlace, List.insertionSort_cons, ih]
    exact insertByPlace_eq_orderedInsert priority fun b hb => ha b ((List.mem_insertionSort _).1 hb)

/-- Operators that are not central are applied by priority, and those of the same priority in the order
of their positions. -/
theorem inOrder_of_not_central (table : OperatorTable) (h : Increasing as)
    (hcentral : ∀ a ∈ as, a.operator.isCentral = false) :
    table.inOrder as =
      as.insertionSort fun a b => table.priority a.operator ≤ table.priority b.operator := by
  refine orderByPlace_eq_insertionSort (fun a => table.priority a.operator)
    (h.imp_of_mem fun {a b} ha hb hab => ?_)
  -- Positions increase along the list, so they break a tie in its order.
  rw [Place.notAfter_iff]
  simp only [OperatorTable.place, hcentral a ha, hcentral b hb, Bool.false_eq_true, if_false]
  omega

end Ordering

namespace OperatorTable

variable {table : OperatorTable} {t : Tree} {base : String}

/-- The custom operators at a base key, each with all its operands: by priority, and with the same
priority as they are first seen. -/
def customContents (table : OperatorTable) (base : String) (t : Tree) : Contents :=
  (((table.identities t).filter fun i => i.base == base && i.operator.isCustom).eraseDups.map
    fun i => (i.operator, table.operandsAt i t)).insertionSort
      fun c d => table.priority c.1 ≤ table.priority d.1

section Contents

/-- Stacked layers have the custom operators of the layers. -/
theorem customContents_stack (table : OperatorTable) (layers : List Tree) (base : String) :
    table.customContents base (table.stack layers) = table.customContents base layers.flatten := by
  simp [customContents, filter_eraseDups]

/-- The custom operators at a base key are those among what is declared there. -/
theorem customContents_eq (base : String) (t : Tree) : table.customContents base t =
    ((contentsAt (table.declared t) base).filter fun c => c.1.isCustom).insertionSort
      fun c d => table.priority c.1 ≤ table.priority d.1 := by
  have hkind (i : Identity) : (i.base == base && i.operator.isCustom) =
      (i.operator.isCustom && (i.base == base && !i.isRootMerge)) := by
    obtain ⟨operator, b⟩ := i
    cases operator <;> simp [Operator.isCustom, Identity.isRootMerge, Operator.isMerge]
  rw [customContents, filter_contentsAt]
  simp only [hkind]

/-- What is listed is a custom operator that is declared. -/
theorem mem_customContents_iff {c : Operator × Operands} : c ∈ table.customContents base t ↔
    c ∈ contentsAt (table.declared t) base ∧ c.1.isCustom = true := by
  rw [customContents_eq, List.mem_insertionSort, List.mem_filter]

/-- Each custom operator is listed once. -/
theorem nodup_customContents (base : String) (t : Tree) :
    ((table.customContents base t).map Prod.fst).Nodup := by
  rw [customContents_eq, ((List.perm_insertionSort _ _).map Prod.fst).nodup_iff]
  exact (nodup_contentsAt table t base).sublist (List.filter_sublist.map Prod.fst)

/-- Where only values and custom operators are declared, the custom operators are what is applied, in
their order. -/
theorem map_content_inOrder_custom (hkinds : ∀ c ∈ contentsAt (table.declared t) base,
      c.1 = .assign ∨ c.1.isCustom = true) :
    (table.inOrder ((numbered (contentsAt (table.declared t) base)).filter
        fun a => !a.operator.isAssign && !a.operator.isMergeBelow)).map Application.content =
      table.customContents base t := by
  have hcustom : (numbered (contentsAt (table.declared t) base)).filter
      (fun a => !a.operator.isAssign && !a.operator.isMergeBelow) =
        (numbered (contentsAt (table.declared t) base)).filter fun a => a.operator.isCustom :=
    List.filter_congr fun _ ha =>
      (Operator.isApplied_eq_isCustom (hkinds _ (content_mem_of_mem_numbered ha))).1
  have hincreasing := (increasing_numbered (contentsAt (table.declared t) base)).filter
    fun a => a.operator.isCustom
  have hcentral : ∀ a ∈ (numbered (contentsAt (table.declared t) base)).filter
      (fun a => a.operator.isCustom), a.operator.isCentral = false := by
    intro a ha
    obtain ⟨name, hname⟩ := Operator.exists_name_of_isCustom (List.mem_filter.1 ha).2
    rw [hname]
    rfl
  have hcontents : ((numbered (contentsAt (table.declared t) base)).filter
      fun a => a.operator.isCustom).map Application.content =
        (contentsAt (table.declared t) base).filter fun c => c.1.isCustom := by
    conv_rhs => rw [← map_content_numbered (contentsAt (table.declared t) base), List.filter_map]
    rfl
  rw [hcustom, inOrder_of_not_central table hincreasing hcentral, customContents_eq, ← hcontents]
  exact List.map_insertionSort (fun a b => table.priority a.operator ≤ table.priority b.operator)
    (fun c d => table.priority c.1 ≤ table.priority d.1) Application.content _ fun _ _ _ _ => Iff.rfl

end Contents

/-- What the custom operators at a base key come to: the value in the end, and what each of them has
left. -/
def customOutcome (table : OperatorTable) (base : String) (t : Tree) (seed : Option Value) :
    Option Value × Contents :=
  table.applyEach seed (table.customContents base t)

/-- Reduce the value that custom operators come to, if there are any. -/
def settleCustom (table : OperatorTable) (inner : Reduction) (base : String) (t : Tree)
    (seed : Option Value) : Option (Option Value) :=
  if (table.customContents base t).isEmpty then some seed
  else reducePresent inner (table.customOutcome base t seed).1

section Base

variable {inner : Reduction}

/-- Where only values and custom operators are declared, a base key is reduced from the last plain
operand by the custom operators, one after the other. -/
theorem reduceBase_of_custom (hkinds : ∀ c ∈ contentsAt (table.declared t) base,
      c.1 = .assign ∨ c.1.isCustom = true) :
    table.reduceBase inner base (numbered (contentsAt (table.declared t) base)) =
      (reducePresent inner (table.assignedAt base t)).bind fun seed =>
        (table.settleCustom inner base t seed).map fun final =>
          (final.toList.map fun v => ((Key.plain base).encode table, v)) ++
            table.residueEntries base (table.customOutcome base t seed).2 := by
  have hbelow : (numbered (contentsAt (table.declared t) base)).filter
      (fun a => a.operator.isMergeBelow) = [] := by
    refine List.filter_eq_nil_iff.2 fun a ha => Bool.eq_false_iff.1 ?_
    exact (Operator.isApplied_eq_isCustom (hkinds _ (content_mem_of_mem_numbered ha))).2
  have hmerge : ∀ c ∈ table.customContents base t, c.1.isMerge = false := by
    intro c hc
    obtain ⟨name, hname⟩ := Operator.exists_name_of_isCustom (mem_customContents_iff.1 hc).2
    rw [hname]
    rfl
  rw [reduceBase_eq_reduceArranged, map_content_inOrder_custom hkinds, hbelow, assignedValue_declared,
    reduceArranged]
  refine Option.bind_congr fun seed _ => ?_
  have hsettle : Progress.settle inner ⟨(table.customOutcome base t seed).1,
      true && (table.customContents base t).isEmpty,
      [] ++ (table.customOutcome base t seed).2.map Application.ofContent⟩ =
        table.settleCustom inner base t seed := by
    rw [Progress.settle, settleCustom, Bool.true_and]
    cases hnone : (table.customContents base t).isEmpty with
    | true =>
      rw [if_pos rfl, if_pos rfl, customOutcome, List.isEmpty_iff.1 hnone]
      rfl
    | false => rfl
  change (((table.customContents base t).map Application.ofContent).foldlM (table.advance inner)
    ⟨seed, true, []⟩).bind _ = _
  rw [foldlM_advance_of_not_merge hmerge, Option.bind_some]
  change (Progress.settle inner ⟨(table.customOutcome base t seed).1, _, _⟩).bind _ = _
  rw [← hsettle]
  exact Option.map_eq_bind.symm

end Base

/-- A value that may be absent settles as another if it is reduced to it. -/
def Settles (table : OperatorTable) (value settled : Option Value) : Prop :=
  ∃ depth, reducePresent (table.reduceWithin depth) value = some settled

/-- A run of the custom operators at a base key, from the last plain operand to the value in the end. The
value is reduced behind the operators, if there are any. -/
structure CustomRun (table : OperatorTable) (base : String) (t : Tree) (seed final : Option Value) :
    Prop where
  seeded : table.Settles (table.assignedAt base t) seed
  settled : if (table.customContents base t).isEmpty then final = seed
    else table.Settles (table.customOutcome base t seed).1 final

section Run

variable {seed final : Option Value}

/-- A value that settles within some depth settles alike within a greater one. -/
theorem reducePresent_mono {n m : Nat} (hnm : n ≤ m) {value settled : Option Value}
    (h : reducePresent (table.reduceWithin n) value = some settled) :
    reducePresent (table.reduceWithin m) value = some settled :=
  keptBy_reducePresent (fun _ _ => reduceWithin_mono hnm) value settled h

/-- A run of the custom operators is one within some depth. -/
theorem customRun_iff : table.CustomRun base t seed final ↔ ∃ depth,
    reducePresent (table.reduceWithin depth) (table.assignedAt base t) = some seed ∧
      table.settleCustom (table.reduceWithin depth) base t seed = some final := by
  by_cases hnone : (table.customContents base t).isEmpty = true
  · constructor
    · rintro ⟨⟨depth, hseed⟩, hsettled⟩
      rw [if_pos hnone] at hsettled
      exact ⟨depth, hseed, by rw [settleCustom, if_pos hnone, hsettled]⟩
    · rintro ⟨depth, hseed, hfinal⟩
      rw [settleCustom, if_pos hnone] at hfinal
      exact ⟨⟨depth, hseed⟩, by rw [if_pos hnone, Option.some.inj hfinal]⟩
  · constructor
    · rintro ⟨⟨n, hn⟩, hsettled⟩
      rw [if_neg hnone] at hsettled
      obtain ⟨m, hm⟩ := hsettled
      refine ⟨max n m, reducePresent_mono (Nat.le_max_left n m) hn, ?_⟩
      rw [settleCustom, if_neg hnone, reducePresent_mono (Nat.le_max_right n m) hm]
    · rintro ⟨depth, hseed, hfinal⟩
      rw [settleCustom, if_neg hnone] at hfinal
      exact ⟨⟨depth, hseed⟩, by rw [if_neg hnone]; exact ⟨depth, hfinal⟩⟩

/-- Stacked layers have the runs of the layers, with the same outcome. -/
theorem customRun_stack (table : OperatorTable) (layers : List Tree) (base : String)
    (seed final : Option Value) :
    (table.CustomRun base (table.stack layers) seed final ↔
        table.CustomRun base layers.flatten seed final) ∧
      table.customOutcome base (table.stack layers) seed =
        table.customOutcome base layers.flatten seed := by
  have hassigned : table.assignedAt base (table.stack layers) = table.assignedAt base layers.flatten := by
    rw [assignedAt, assignedAt, operandsAt_stack]
  simp only [customRun_iff, settleCustom, customOutcome, customContents_stack, hassigned, and_self]

/-- What is left belongs to custom operators that are declared. -/
theorem declared_of_mem_customOutcome {left : Operator × Operands}
    (h : left ∈ (table.customOutcome base t seed).2) :
    left.1.FitsBefore table base.toList ∧ left.1.isCustom = true := by
  have hmem : left.1 ∈ (table.customContents base t).map Prod.fst := by
    rw [← map_fst_applyEach seed]
    exact List.mem_map_of_mem h
  obtain ⟨c, hc, heq⟩ := List.mem_map.1 hmem
  obtain ⟨hc, hcustom⟩ := mem_customContents_iff.1 hc
  rw [← heq]
  exact ⟨fitsBefore_of_mem_contentsAt table hc, hcustom⟩

/-- The entries of a base key after a run of custom operators are read back as its value and what the
operators have left. -/
theorem read_back_custom {r : Tree} (hr : table.atBase base r =
      (final.toList.map fun v => ((Key.plain base).encode table, v)) ++
        table.residueEntries base (table.customOutcome base t seed).2) :
    r.lookup ((Key.plain base).encode table) = final ∧
      ∀ left ∈ (table.customOutcome base t seed).2, table.operandsAt ⟨left.1, base⟩ r = left.2 := by
  have hplain : table.identityOf ((Key.plain base).encode table) = ⟨.assign, base⟩ :=
    (reduced_plain table base .null).1
  have hfits : ∀ left ∈ (table.customOutcome base t seed).2, left.2 ≠ [] →
      left.1.FitsBefore table base.toList := fun left h _ => (declared_of_mem_customOutcome h).1
  have hnodup : ((table.customOutcome base t seed).2.map Prod.fst).Nodup := by
    rw [customOutcome, map_fst_applyEach]
    exact nodup_customContents base t
  have hassign : ∀ left ∈ (table.customOutcome base t seed).2, left.1 ≠ .assign := by
    intro left hleft heq
    have hcustom := (declared_of_mem_customOutcome hleft).2
    rw [heq] at hcustom
    exact Bool.false_ne_true hcustom
  constructor
  · have hresidue : (table.residueEntries base (table.customOutcome base t seed).2).lookup
        ((Key.plain base).encode table) = none := by
      refine List.lookup_eq_none_iff.2 fun e he => ?_
      obtain ⟨left, hleft, -, hidentity⟩ :=
        (mem_identities_residueEntries hfits).1 (List.mem_map_of_mem he)
      rw [bne_iff_ne]
      intro hkey
      rw [← hkey, hplain] at hidentity
      exact hassign left hleft (congrArg Identity.operator hidentity)
    have hlookup := lookup_atBase table ((Key.plain base).encode table) r
    rw [hplain, hr] at hlookup
    rw [← hlookup]
    cases final with
    | none => exact hresidue
    | some v => simp
  · intro left hleft
    rw [← operandsAt_atBase, hr, operandsAt_written hfits final hassign hnodup hleft]

/-- The entries of a base key are reduced exactly if its custom operators have a run, and then to the value
of the run and to what the operators have left. -/
theorem reduces_atBase_iff (hroot : ∀ i ∈ table.identities t, i.isRootMerge = false)
    (hkinds : ∀ i ∈ table.identities t, i.base = base →
      i.operator = .assign ∨ i.operator.isCustom = true) {entries : Tree} :
    table.Reduces (table.atBase base t) entries ↔ ∃ seed final, table.CustomRun base t seed final ∧
      (final.toList.map fun v => ((Key.plain base).encode table, v)) ++
        table.residueEntries base (table.customOutcome base t seed).2 = entries := by
  have hkinds' : ∀ c ∈ contentsAt (table.declared t) base, c.1 = .assign ∨ c.1.isCustom = true := by
    intro c hc
    obtain ⟨i, hi, hbase, -, rfl⟩ := (mem_contentsAt_iff table).1 hc
    exact hkinds i hi hbase
  have hlevel (inner : Reduction) : table.reduceLevel inner (table.atBase base t) = _ :=
    (reduceLevel_atBase (rootContents_eq_nil table (isRootMerge_atBase hroot base))).trans
      (reduceBase_of_custom hkinds')
  simp only [customRun_iff]
  constructor
  · intro h
    obtain ⟨depth, hdepth⟩ := h.exists_reduceLevel
    rw [hlevel] at hdepth
    obtain ⟨seed, hseed, hdepth⟩ := Option.bind_eq_some_iff.1 hdepth
    obtain ⟨final, hfinal, hentries⟩ := Option.map_eq_some_iff.1 hdepth
    exact ⟨seed, final, ⟨depth, hseed, hfinal⟩, hentries⟩
  · rintro ⟨seed, final, ⟨depth, hseed, hfinal⟩, rfl⟩
    refine ⟨depth + 1, ?_⟩
    change table.reduceLevel (table.reduceWithin depth) _ = _
    rw [hlevel, hseed, Option.bind_some, hfinal]
    rfl

end Run

/-- Custom operators are folded once each: where a base key has nothing but values and custom operators,
stacked layers are reduced to what the custom operators make of the last plain operand, one after the other
by priority and, with the same priority, as they are first seen, each of them applied to all its operands.
The operands that each of them leaves are read back as they were left. The base key does not keep the
layers from being reduced, if its custom operators have a run. -/
theorem custom_operators_fold_once (table : OperatorTable) (layers : List Tree) (base : String)
    (hroot : ∀ i ∈ table.identities layers.flatten, i.isRootMerge = false)
    (hkinds : ∀ i ∈ table.identities layers.flatten, i.base = base →
      i.operator = .assign ∨ i.operator.isCustom = true) :
    (∀ r, table.Reduces (table.stack layers) r →
        ∃ seed final, table.CustomRun base layers.flatten seed final ∧
          r.lookup ((Key.plain base).encode table) = final ∧
            ∀ left ∈ (table.customOutcome base layers.flatten seed).2,
              table.operandsAt ⟨left.1, base⟩ r = left.2) ∧
      ((∃ seed final, table.CustomRun base layers.flatten seed final) →
        (∃ r, table.Reduces ((table.stack layers).filter fun e => table.baseOf e != base) r) →
          ∃ r, table.Reduces (table.stack layers) r) := by
  have hmem (i : Identity) : i ∈ table.identities (table.stack layers) ↔
      i ∈ table.identities layers.flatten := by
    simp
  have hroot' : ∀ i ∈ table.identities (table.stack layers), i.isRootMerge = false :=
    fun i hi => hroot i ((hmem i).1 hi)
  have hentries {entries : Tree} :
      table.Reduces (table.atBase base (table.stack layers)) entries ↔ _ :=
    reduces_atBase_iff hroot' fun i hi => hkinds i ((hmem i).1 hi)
  constructor
  · intro r hr
    obtain ⟨seed, final, hrun, hr⟩ := hentries.1 (hr.atBase hroot' base)
    obtain ⟨hstack, houtcome⟩ := customRun_stack table layers base seed final
    rw [houtcome] at hr
    exact ⟨seed, final, hstack.1 hrun, read_back_custom hr.symm⟩
  · rintro ⟨seed, final, hrun⟩ hrest
    have hrun' := (customRun_stack table layers base seed final).1.2 hrun
    exact exists_reduces_of_rest hroot' ⟨_, hentries.2 ⟨seed, final, hrun', rfl⟩⟩ hrest

/-- Three custom operators, two of them with the same priority, over two layers: one leaves an array as one
operand, one leaves several operands, and the last makes a tree that is reduced. -/
theorem custom_operators_fold_once_over_layers :
    let table : OperatorTable := ⟨[("take", ⟨5, fun value operands => (value, operands.drop 1)⟩),
      ("nest", ⟨5, fun value operands =>
        (some (.tree [("a", value.getD .null), ("#+a", .array operands)]), [])⟩),
      ("join", ⟨-1, fun value operands => (value, [.array operands])⟩)], by decide⟩
    let layers : List Tree := [[("#(take)hp", .array [.number (.int 1), .null]), ("hp", .number (.int 7)),
        ("(nest)hp", .number (.int 2)), ("mp", .number (.int 3))],
      [("(#take)hp", .array [.bool true]), ("(join)hp", .string "x"), ("(nest)hp", .number (.int 1))]]
    let r : Tree := [("hp", .tree [("a", .number (.int 10))]), ("(join)hp", .array [.string "x"]),
      ("(#take)hp", .array [.null, .bool true]), ("mp", .number (.int 3))]
    table.Reduces (table.stack layers) r ∧
      ∃ seed final, table.CustomRun "hp" layers.flatten seed final ∧ r.lookup "hp" = final ∧
        ∀ left ∈ (table.customOutcome "hp" layers.flatten seed).2,
          table.operandsAt ⟨left.1, "hp"⟩ r = left.2 := by
  intro table layers r
  have hreduces : table.Reduces (table.stack layers) r := ⟨3, by decide +kernel⟩
  have hkey : (Key.plain "hp").encode table = "hp" := by decide +kernel
  obtain ⟨hrun, -⟩ := custom_operators_fold_once table layers "hp" (by decide +kernel) (by decide +kernel)
  obtain ⟨seed, final, hseed, hlookup, hleft⟩ := hrun r hreduces
  rw [hkey] at hlookup
  exact ⟨hreduces, seed, final, hseed, hlookup, hleft⟩

end OperatorTable

end Overlay
