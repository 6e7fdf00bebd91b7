import Overlay.Proofs.Reduce.Termination

/-!
# Operands of the wrong type

Arithmetic takes numbers and the joining of arrays takes arrays. Operands of any other type have no part
in what the operators make of a value and leave beside it, and no part in the order of application. But
an operator that is declared at all has the value settled once more behind it. So operands of the wrong
type can be left out where this second reduction changes nothing: where other operands are left at the
base key, and where the value that they meet is reduced for good.
-/

namespace Overlay

/-- Test whether an operator takes an operand: arithmetic takes numbers, the joining of arrays takes
arrays, and all other operators take any value. -/
def Operator.takes : Operator → Value → Bool
  | add, v | multiply, v => v.number?.isSome
  | prepend, v | append, v => v.items?.isSome
  | _, _ => true

/-- Test for the plain operator or a merge below the value. -/
def Operator.isBelow (o : Operator) : Bool := o.isAssign || o.isMergeBelow

/-- A value with those operands that an operator takes, if there are any. -/
def Operator.fitValue? (o : Operator) (spread : Bool) (value : Value) : Option Value :=
  match spread, value with
  | true, .array items =>
    if (items.filter o.takes).isEmpty then none else some (.array (items.filter o.takes))
  | _, value => if o.takes value then some value else none

/-- What is left of a value are those of its operands that the operator takes. -/
theorem ofValue_fitValue? (o : Operator) (spread : Bool) (value : Value) :
    (o.fitValue? spread value).toList.flatMap (Operands.ofValue spread) =
      (Operands.ofValue spread value).filter o.takes := by
  unfold Operator.fitValue? Operands.ofValue
  split
  · next items =>
    cases hfit : items.filter o.takes <;> simp
  · next hsingle =>
    cases htakes : o.takes value with
    | false => simp [htakes]
    | true =>
      simp [htakes]

/-- Merges above are not below. -/
theorem Operator.not_isBelow_of_isMergeAbove {o : Operator} (h : o.isMergeAbove = true) :
    ¬ o.isBelow = true := by
  unfold isMergeAbove at h
  split at h
  · exact Bool.false_ne_true
  · exact absurd h (by simp)

namespace OperatorTable

variable {table : OperatorTable} {t : Tree} {base : String}

/-- An entry with those operands that its operator takes. A central operator without any of them has no
entry. -/
def fitPart? (table : OperatorTable) (e : String × Value) : Option (String × Value) :=
  if (table.identityOf e.1).operator.isCentral then
    ((table.identityOf e.1).operator.fitValue? (Key.parse table e.1).spread e.2).map fun v => (e.1, v)
  else some e

/-- A tree without the operands of the wrong type at its top. -/
def withoutUnfit (table : OperatorTable) (t : Tree) : Tree := t.filterMap table.fitPart?

section Entries

/-- Operators that are not central take any value. -/
theorem takes_of_not_central {o : Operator} (ho : o.isCentral = false) (value : Value) :
    o.takes value = true := by
  cases o <;> simp [Operator.isCentral] at ho <;> rfl

/-- An entry for no central operator stays as it is. -/
theorem fitPart?_of_not_central {e : String × Value}
    (h : (table.identityOf e.1).operator.isCentral = false) : table.fitPart? e = some e := by
  rw [fitPart?, if_neg (by simp [h])]

/-- An entry keeps its key. -/
theorem fst_of_fitPart? {e e' : String × Value} (h : table.fitPart? e = some e') : e'.1 = e.1 := by
  unfold fitPart? at h
  split at h
  · obtain ⟨v, -, rfl⟩ := Option.map_eq_some_iff.1 h
    rfl
  · rw [← Option.some.inj h]

/-- An entry keeps those operands that its operator takes. -/
theorem operands_fitPart? (table : OperatorTable) (e : String × Value) :
    (table.fitPart? e).toList.flatMap (fun e => (Contribution.ofEntry table e).operands) =
      (Contribution.ofEntry table e).operands.filter (table.identityOf e.1).operator.takes := by
  have hoperands := ofValue_fitValue? (table.identityOf e.1).operator (Key.parse table e.1).spread e.2
  unfold fitPart?
  split
  · rw [Option.toList_map, List.flatMap_map]
    exact hoperands
  · next hcentral =>
    have htakes := takes_of_not_central (Bool.eq_false_iff.2 hcentral)
    rw [List.filter_eq_self.2 fun v _ => htakes v]
    simp

/-- Entries are picked out alike before and after. -/
theorem filter_withoutUnfit (q : Identity → Bool) (t : Tree) :
    (table.withoutUnfit t).filter (fun e => q (table.identityOf e.1)) =
      table.withoutUnfit (t.filter fun e => q (table.identityOf e.1)) := by
  induction t with
  | nil => rfl
  | cons e rest ih =>
    have hcons (u : Tree) : table.withoutUnfit (e :: u) =
        (table.fitPart? e).toList ++ table.withoutUnfit u := by
      cases hfit : table.fitPart? e <;> simp [withoutUnfit, hfit]
    rw [hcons, List.filter_append, ih]
    cases hfit : table.fitPart? e with
    | none =>
      cases hq : q (table.identityOf e.1) <;> simp [hq, hcons, hfit]
    | some e' =>
      have hkey := fst_of_fitPart? hfit
      cases hq : q (table.identityOf e.1) <;> simp [hq, hcons, hfit, hkey]

/-- The operands of an identity are those that its operator takes. -/
theorem operandsAt_withoutUnfit (i : Identity) (t : Tree) :
    table.operandsAt i (table.withoutUnfit t) = (table.operandsAt i t).filter i.operator.takes := by
  have hsame : ∀ e ∈ t.filter (fun e => table.identityOf e.1 == i), table.identityOf e.1 = i :=
    fun e he => by simpa using (List.mem_filter.1 he).2
  rw [operandsAt_eq_flatMap, operandsAt_eq_flatMap, filter_withoutUnfit (· == i)]
  generalize t.filter (fun e => table.identityOf e.1 == i) = es at hsame
  induction es with
  | nil => rfl
  | cons e rest ih =>
    have hoperands := operands_fitPart? table e
    rw [hsame e List.mem_cons_self] at hoperands
    rw [List.flatMap_cons, List.filter_append, ← hoperands,
      ← ih fun e he => hsame e (List.mem_cons_of_mem _ he)]
    cases hfit : table.fitPart? e <;> simp [withoutUnfit, hfit]

/-- Entries for operators that are not central stay as they are. -/
theorem sameBesideCentral_withoutUnfit (t : Tree) :
    SameBesideCentral table (table.withoutUnfit t) t where
  identities_eq := by
    have hkept : table.withoutUnfit (t.filter fun e => !(table.identityOf e.1).operator.isCentral) =
        t.filter fun e => !(table.identityOf e.1).operator.isCentral := by
      rw [withoutUnfit, List.filterMap_congr fun e he =>
        fitPart?_of_not_central (by simpa using (List.mem_filter.1 he).2)]
      exact List.filterMap_some
    have hfilter (u : Tree) : (table.identities u).filter (fun i => !i.operator.isCentral) =
        table.identities (u.filter fun e => !(table.identityOf e.1).operator.isCentral) :=
      List.filter_map
    rw [hfilter, hfilter, filter_withoutUnfit fun i => !i.operator.isCentral, hkept]
  operandsAt_eq i hi := by
    rw [operandsAt_withoutUnfit, List.filter_eq_self.2 fun v _ => takes_of_not_central hi v]

end Entries

section Apply

/-- What an operator does depends on the operands that it takes alone. -/
theorem apply_filter_takes {o : Operator} (ho : o.isCentral = true) (value : Option Value)
    (operands : Operands) :
    table.apply o value (operands.filter o.takes) = table.apply o value operands := by
  have hpicked {α : Type} (f : Value → Option α) (operands : Operands) :
      (operands.filter fun v => (f v).isSome).filterMap f = operands.filterMap f := by
    rw [List.filterMap_filter]
    refine List.filterMap_congr fun v _ => ?_
    cases f v <;> rfl
  cases o with
  | multiply | add =>
    simp only [apply, multiplyNumbers, addNumbers, calculate]
    rw [show operands.filter (Operator.takes _) = operands.filter fun v => v.number?.isSome from rfl,
      hpicked]
  | prepend =>
    simp only [apply, prependArrays, ← List.filter_reverse]
    rw [show operands.reverse.filter (Operator.takes _) =
      operands.reverse.filter fun v => v.items?.isSome from rfl, hpicked]
  | append =>
    simp only [apply, appendArrays]
    rw [show operands.filter (Operator.takes _) = operands.filter fun v => v.items?.isSome from rfl,
      hpicked]
  | _ => simp [Operator.isCentral] at ho

/-- Operators that do the same with other operands do the same one after the other. -/
theorem applyEach_map {cs : Contents} {f : Operator × Operands → Operands}
    (h : ∀ c ∈ cs, ∀ value, table.apply c.1 value (f c) = table.apply c.1 value c.2)
    (value : Option Value) :
    table.applyEach value (cs.map fun c => (c.1, f c)) = table.applyEach value cs := by
  induction cs generalizing value with
  | nil => rfl
  | cons c rest ih =>
    simp only [List.map_cons, applyEach, h c List.mem_cons_self]
    rw [ih fun d hd => h d (List.mem_cons_of_mem _ hd)]

/-- The central operators do the same without the operands of the wrong type. -/
theorem applyEach_withoutUnfit (base : String) (t : Tree) (value : Option Value) :
    table.applyEach value (table.centralContents base (table.withoutUnfit t)) =
      table.applyEach value (table.centralContents base t) := by
  have hcontents : table.centralContents base (table.withoutUnfit t) =
      (table.centralContents base t).map fun c => (c.1, c.2.filter c.1.takes) := by
    rw [centralContents, centralContents, List.map_map]
    exact List.map_congr_left fun o _ => by rw [operandsAt_withoutUnfit]; rfl
  rw [hcontents]
  exact applyEach_map (fun c hc => fun value =>
    apply_filter_takes (isCentral_of_mem_centralContents hc) value c.2) value

end Apply

section Contents

/-- No identities are added. -/
theorem mem_identities_of_withoutUnfit {i : Identity}
    (hi : i ∈ table.identities (table.withoutUnfit t)) : i ∈ table.identities t := by
  obtain ⟨e', he', rfl⟩ := List.mem_map.1 hi
  obtain ⟨e, he, hfit⟩ := List.mem_filterMap.1 he'
  rw [fst_of_fitPart? hfit]
  exact List.mem_map_of_mem he

/-- No central operator is declared anew. -/
theorem hasCentral_of_withoutUnfit (h : table.hasCentral base (table.withoutUnfit t) = true) :
    table.hasCentral base t = true := by
  simp only [hasCentral, List.any_eq_true, decide_eq_true_eq] at h ⊢
  obtain ⟨o, ho, hi⟩ := h
  exact ⟨o, ho, mem_identities_of_withoutUnfit hi⟩

end Contents

section Base

variable {inner : Reduction}

/-- A base key at which all operands of the central operators are of the wrong type. -/
def LosesCentral (table : OperatorTable) (base : String) (t : Tree) : Prop :=
  table.hasCentral base t = true ∧ table.hasCentral base (table.withoutUnfit t) = false

/-- A base key is reduced alike without the operands of the wrong type, unless it loses all its central
operators with them and the value before these is not reduced for good. -/
theorem reduceBase_withoutUnfit
    (hcustom : ∀ c ∈ contentsAt (table.declared t) base, ∀ name, c.1 ≠ .custom name)
    (hcustom' : ∀ c ∈ contentsAt (table.declared (table.withoutUnfit t)) base, ∀ name,
      c.1 ≠ .custom name)
    (hsettled : table.LosesCentral base t → ∀ value, table.valueBelow inner base t = some value →
      reducePresent inner value = some value) :
    table.reduceBase inner base (numbered (contentsAt (table.declared (table.withoutUnfit t)) base)) =
      table.reduceBase inner base (numbered (contentsAt (table.declared t) base)) := by
  refine (sameBesideCentral_withoutUnfit t).reduceBase_eq hcustom' hcustom
    (applyEach_withoutUnfit base t) fun value hvalue => ?_
  unfold settleCentral
  rw [applyEach_withoutUnfit]
  cases hbefore : table.hasCentral base t with
  | false =>
    have hafter : table.hasCentral base (table.withoutUnfit t) = false :=
      Bool.eq_false_iff.2 fun h => by simp [hasCentral_of_withoutUnfit h] at hbefore
    rw [hafter]
  | true =>
    cases hafter : table.hasCentral base (table.withoutUnfit t) with
    | true => rfl
    | false =>
      -- With the last central operator the reduction behind it is lost, so the value must be settled.
      have hkept := (applyEach_of_hasCentral_eq_false hafter value).1
      rw [applyEach_withoutUnfit] at hkept
      rw [if_neg Bool.false_ne_true, if_pos rfl, hkept, hsettled ⟨hbefore, hafter⟩ value hvalue]

end Base

section Level

variable {inner : Reduction}

/-- The entries of a level are the same up to order, if each base key is reduced alike. -/
theorem levelEntries_withoutUnfit (hbase : ∀ base, table.reduceBase inner base
      (numbered (contentsAt (table.declared (table.withoutUnfit t)) base)) =
        table.reduceBase inner base (numbered (contentsAt (table.declared t) base)))
    {entries : Tree} (h : table.levelEntries inner t = some entries) :
    ∃ entries', table.levelEntries inner (table.withoutUnfit t) = some entries' ∧
      entries.Perm entries' := by
  rw [levelEntries_eq] at h ⊢
  simp only [hbase]
  obtain ⟨blocks, hblocks, rfl⟩ := Option.map_eq_some_iff.1 h
  have hsub {base : String} (hmem : base ∈ basesOf (table.declared (table.withoutUnfit t))) :
      base ∈ basesOf (table.declared t) := by
    obtain ⟨i, hi, hroot, hb⟩ := (mem_basesOf_iff table).1 hmem
    exact (mem_basesOf_iff table).2 ⟨i, mem_identities_of_withoutUnfit hi, hroot, hb⟩
  -- A base key that is lost has nothing to be reduced from, so it has no entries.
  obtain ⟨kept, hkept, hflatten⟩ := exists_mapM_filter
    (p := fun base => base ∈ basesOf (table.declared (table.withoutUnfit t)))
    (fun base _ hlost => by
      rw [← hbase, contentsAt_eq_nil table (of_decide_eq_false hlost)]
      rfl) hblocks
  have hperm : ((basesOf (table.declared t)).filter
      fun base => base ∈ basesOf (table.declared (table.withoutUnfit t))).Perm
        (basesOf (table.declared (table.withoutUnfit t))) := by
    refine (List.perm_ext_iff_of_nodup ((nodup_basesOf table _).filter _)
      (nodup_basesOf table _)).2 fun base => ?_
    rw [List.mem_filter, decide_eq_true_eq]
    exact ⟨And.right, fun hmem => ⟨hsub hmem, hmem⟩⟩
  obtain ⟨blocks', hblocks', hblock⟩ := exists_mapM_perm hperm hkept
  refine ⟨blocks'.flatten, by rw [hblocks']; rfl, ?_⟩
  rw [hflatten]
  exact hblock.flatten

/-- The plain entries and the merges below at a base key. -/
def seedAt (table : OperatorTable) (base : String) (t : Tree) : Tree :=
  t.filter fun e => (table.identityOf e.1).base == base && !(table.identityOf e.1).isRootMerge &&
    (table.identityOf e.1).operator.isBelow

/-- The plain operator and the merges below are declared alike in the entries for them. -/
theorem contentsAt_seedAt (base : String) (t : Tree) :
    contentsAt (table.declared (table.seedAt base t)) base =
      (contentsAt (table.declared t) base).filter fun c => c.1.isBelow := by
  unfold seedAt
  rw [declared_filter table fun i => i.base == base && !i.isRootMerge && i.operator.isBelow]
  simp only [contentsAt, contentsOf, List.filter_map, List.filter_filter]
  congr 1
  apply List.filter_congr
  intro d _
  cases d.1.base == base <;> cases d.1.isRootMerge <;> simp

/-- The plain entries and the merges below at a base key are reduced to the value that the base key has
before the central operators. -/
theorem reduceLevel_seedAt (inner : Reduction) (base : String) (t : Tree) :
    table.reduceLevel inner (table.seedAt base t) = (table.valueBelow inner base t).map
      fun value => value.toList.map fun v => ((Key.plain base).encode table, v) := by
  let seed := table.seedAt base t
  have hseed : ∀ i ∈ table.identities seed,
      (i.base == base && !i.isRootMerge && i.operator.isBelow) = true := by
    intro i hi
    obtain ⟨e, he, rfl⟩ := List.mem_map.1 hi
    exact (List.mem_filter.1 he).2
  have hroot : ∀ i ∈ table.identities seed, i.isRootMerge = false := fun i hi => by
    simpa using (Bool.and_eq_true_iff.1 (Bool.and_eq_true_iff.1 (hseed i hi)).1).2
  have hbelow : ∀ c ∈ contentsAt (table.declared seed) base, c.1.isBelow = true := by
    intro c hc
    rw [contentsAt_seedAt] at hc
    exact (List.mem_filter.1 hc).2
  have hassign : table.operandsAt ⟨.assign, base⟩ seed = table.operandsAt ⟨.assign, base⟩ t :=
    operandsAt_filter (p := fun i => i.base == base && !i.isRootMerge && i.operator.isBelow)
      (by simp [Operator.isBelow, Operator.isAssign, Identity.isRootMerge, Operator.isMerge]) t
  have hmergesBelow : table.mergesBelow base seed = table.mergesBelow base t := by
    rw [mergesBelow, mergesBelow, contentsAt_seedAt, List.filter_filter]
    congr 1
    refine List.filter_congr fun c _ => ?_
    cases hmerge : c.1.isMergeBelow <;> simp [Operator.isBelow, hmerge]
  have hmergesAbove : table.mergesAbove base seed = [] := by
    refine List.eq_nil_iff_forall_not_mem.2 fun c hc => ?_
    obtain ⟨hc, habove⟩ := isMergeAbove_of_mem_mergesAbove hc
    exact Operator.not_isBelow_of_isMergeAbove habove (hbelow c hc)
  have hcentral : table.hasCentral base seed = false := by
    rw [hasCentral, List.any_eq_false]
    intro o ho hi
    have hbelow := (Bool.and_eq_true_iff.1 (hseed _ (of_decide_eq_true hi))).2
    cases o <;> simp [Operator.centrals] at ho <;> simp [Operator.isBelow, Operator.isAssign,
      Operator.isMergeBelow] at hbelow
  have hseedBase : table.atBase base seed = seed := atBase_eq_self fun e he => by
    simpa [baseOf] using (Bool.and_eq_true_iff.1
      (Bool.and_eq_true_iff.1 (hseed _ (List.mem_map_of_mem he))).1).1
  have hcustom : ∀ c ∈ contentsAt (table.declared seed) base, ∀ name, c.1 ≠ .custom name := by
    intro c hc name hname
    have h := hbelow c hc
    rw [hname] at h
    exact Bool.false_ne_true h
  have hlevel : table.reduceLevel inner (table.atBase base seed) = _ :=
    reduceLevel_atBase (by rw [hseedBase]; exact rootContents_eq_nil table hroot)
  rw [hseedBase] at hlevel
  change table.reduceLevel inner seed = _
  rw [hlevel, reduceBase_of_builtin hcustom, hassign, hmergesBelow, hmergesAbove, valueBelow,
    Option.map_bind]
  refine Option.bind_congr fun start _ => ?_
  rw [Function.comp_apply, Option.map_eq_bind]
  refine Option.bind_congr fun value _ => ?_
  rw [settleCentral, hcentral, (applyEach_of_hasCentral_eq_false hcentral value).2]
  simp

end Level

/-- Without custom operators reduction does not depend on the order of declarations, and gives normal
forms. -/
theorem ignoresOrder_reduce :
    Reduction.IgnoresOrder empty.reduce empty ∧ Reduction.Normalizes empty.reduce empty := by
  have hpriorities : empty.PrioritiesApart := by
    constructor <;> simp
  constructor
  · intro t u h r hr
    obtain ⟨depth, hdepth⟩ := reduces_of_reduce hr
    obtain ⟨s, hs, hperm⟩ := ignoresOrder_reduceWithin hpriorities depth t u h r hdepth
    exact ⟨s, reduces_iff_reduce.1 ⟨depth, hs⟩, hperm⟩
  · exact fun t r hr => normalizes_reduceWithin empty _ t r hr

/-- Operands of the wrong type are skipped: without custom operators a tree and the tree without them are
reduced to the same entries in some order each. This holds where no base key loses all its central
operators with the operands, and also where one does, if the value from its plain key and the merges
below is reduced to a tree that reduction leaves alone. -/
theorem unfit_operands_are_skipped (t : Tree)
    (hsettled : ∀ base, empty.LosesCentral base t → ∀ r, empty.reduce (empty.seedAt base t) = some r →
      empty.reduce r = some r) :
    ∃ r s, empty.reduce t = some r ∧ empty.reduce (empty.withoutUnfit t) = some s ∧ r.Perm s := by
  obtain ⟨r, hr, -⟩ := exists_reduce t
  have hbase (base : String) : empty.reduceBase empty.reduce base
      (numbered (contentsAt (empty.declared (empty.withoutUnfit t)) base)) =
        empty.reduceBase empty.reduce base (numbered (contentsAt (empty.declared t) base)) := by
    refine reduceBase_withoutUnfit (fun _ => ne_custom_of_mem_contentsAt)
      (fun _ => ne_custom_of_mem_contentsAt) fun hloses value hvalue => ?_
    have hseed : empty.reduce (empty.seedAt base t) =
        some (value.toList.map fun v => ((Key.plain base).encode empty, v)) := by
      rw [← reduceLevel_reduce, reduceLevel_seedAt, hvalue]
      rfl
    cases value with
    | none => rfl
    | some v =>
      have hagain := hsettled base hloses _ hseed
      change empty.reduce [((Key.plain base).encode empty, v)] = _ at hagain
      rw [← reduceLevel_reduce, reduceLevel_plain] at hagain
      obtain ⟨w, hw, heq⟩ := Option.map_eq_some_iff.1 hagain
      have hsame : w = v := by simpa using heq
      rw [reducePresent, hw, hsame]
      rfl
  have hlevel := hr
  rw [← reduceLevel_reduce, reduceLevel_eq_entries] at hlevel
  obtain ⟨entries, hentries, hlevel⟩ := Option.bind_eq_some_iff.1 hlevel
  obtain ⟨entries', hentries', hperm⟩ := levelEntries_withoutUnfit hbase hentries
  obtain ⟨hinner, hnormal⟩ := ignoresOrder_reduce
  obtain ⟨s, hs, hrs⟩ := exists_foldlM_related
    (fun t u a r => mergeRootOperands_reordered hinner hnormal)
    (Reordered.mk hperm (writtenFor_levelEntries hentries).distinct) hlevel
  refine ⟨r, s, hr, ?_, hrs.perm⟩
  rw [← reduceLevel_reduce, reduceLevel_eq_entries, hentries',
    (sameBesideCentral_withoutUnfit t).rootContents_eq]
  exact hs

/-- Operands of the wrong type beside good ones, alone on a number, and alone on a merged value that keeps
an operand without a target. -/
theorem unfit_operands_are_skipped_at_settled_values :
    let t : Tree := [("#+hp", .array [.number (.int 2), .string "x", .null]), ("hp", .number (.int 1)),
      ("#<+mp", .array [.null]), ("mp", .number (.int 3)), ("+aura", .bool true),
      ("aura", .tree [("+heat", .number (.int 1))]), ("<*aura", .tree [("range", .null)])]
    let rest : Tree := [("#+hp", .array [.number (.int 2)]), ("hp", .number (.int 1)),
      ("mp", .number (.int 3)), ("aura", .tree [("+heat", .number (.int 1))]),
      ("<*aura", .tree [("range", .null)])]
    empty.withoutUnfit t = rest ∧
      ∃ r s, empty.reduce t = some r ∧ empty.reduce rest = some s ∧ r.Perm s := by
  intro t rest
  have hrest : empty.withoutUnfit t = rest := by decide +kernel
  have hbases {base : String} (hloses : empty.LosesCentral base t) : base = "mp" ∨ base = "aura" := by
    obtain ⟨o, -, hi⟩ := List.any_eq_true.1 hloses.1
    have hbase : base ∈ empty.bases t := base_mem_bases (of_decide_eq_true hi)
    have hdeclared : empty.bases t = ["hp", "mp", "aura"] := by decide +kernel
    have hkept : empty.hasCentral "hp" (empty.withoutUnfit t) = true := by decide +kernel
    rw [hdeclared, List.mem_cons, List.mem_pair] at hbase
    rcases hbase with rfl | hbase
    · exact absurd hloses.2 (by simp [hkept])
    · exact hbase
  have hsettled : ∀ base, empty.LosesCentral base t → ∀ r, empty.reduce (empty.seedAt base t) = some r →
      empty.reduce r = some r := by
    intro base hloses r hr
    rcases hbases hloses with rfl | rfl
    · have hseed : empty.reduce (empty.seedAt "mp" t) = some [("mp", .number (.int 3))] :=
        reduces_iff_reduce.1 ⟨3, by decide +kernel⟩
      obtain rfl := Option.some.inj (hr.symm.trans hseed)
      exact reduces_iff_reduce.1 ⟨3, by decide +kernel⟩
    · have hseed : empty.reduce (empty.seedAt "aura" t) =
          some [("aura", .tree [("range", .null), ("+heat", .number (.int 1))])] :=
        reduces_iff_reduce.1 ⟨3, by decide +kernel⟩
      obtain rfl := Option.some.inj (hr.symm.trans hseed)
      exact reduces_iff_reduce.1 ⟨3, by decide +kernel⟩
  exact ⟨hrest, hrest ▸ unfit_operands_are_skipped t hsettled⟩

/-- An operand of the wrong type has the value that it meets reduced once more, so an operand that was
left beside this value is applied after all. -/
theorem unfit_operands_settle_the_value :
    ¬ ∀ t r s, empty.reduce t = some r → empty.reduce (empty.withoutUnfit t) = some s → r.Perm s := by
  intro hskipped
  let t : Tree := [("s", .tree [("+a", .number (.int 1)), ("*>a", .number (.int 5))]), ("+s", .string "x")]
  have hreduce : empty.reduce t = some [("s", .tree [("a", .number (.int 6))])] :=
    reduces_iff_reduce.1 ⟨3, by decide +kernel⟩
  have hskip : empty.reduce (empty.withoutUnfit t) =
      some [("s", .tree [("a", .number (.int 5)), ("+a", .number (.int 1))])] :=
    reduces_iff_reduce.1 ⟨3, by decide +kernel⟩
  have hperm := hskipped t _ _ hreduce hskip
  exact absurd (List.perm_singleton.1 hperm.symm) (by decide +kernel)

end OperatorTable

end Overlay
