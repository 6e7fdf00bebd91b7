import Overlay.Proofs.Reduce.Merges
import Overlay.Proofs.Reduce.Reordering

/-!
# Base keys without custom operators

Where no custom operator is declared at a base key, the order of application is known beforehand:
the merges below the value, then the central operators by their ranks, then the merges above. The
central operators ask for no inner tree and cannot fail, so they are one step from a value to a value
and to what they leave beside it. All four of them can be taken part in this step, since one that is
not declared has no operands and does nothing.

What operators leave is written as residue, one entry for each operator, and read back from it as it was
left.
-/

namespace Overlay

namespace Operator

/-- The central operators in the order of their ranks. -/
def centrals : List Operator := [multiply, add, prepend, append]

/-- The central operators are listed. -/
@[simp] theorem mem_centrals_iff {o : Operator} : o ∈ centrals ↔ o.isCentral = true := by
  cases o <;> simp [centrals, isCentral]

/-- No central operator is a merge. -/
@[grind →] theorem isMerge_of_isCentral {o : Operator} (h : o.isCentral = true) :
    o.isMerge = false := by
  cases o <;> simp [isCentral, isMerge] at h ⊢

/-- No identity of a central operator is a merge with the whole tree. -/
theorem isRootMerge_of_isCentral {i : Identity} (h : i.operator.isCentral = true) :
    i.isRootMerge = false := by
  rw [Identity.isRootMerge, isMerge_of_isCentral h, Bool.false_and]

/-- Central operators are applied after the merges below. -/
@[grind →] theorem isApplied_of_isCentral {o : Operator} (h : o.isCentral = true) :
    o.isApplied = true := by
  cases o <;> simp [isCentral, isApplied, isAssign, isMergeBelow] at h ⊢

/-- Test for a merge above the value. -/
def isMergeAbove : Operator → Bool
  | merge .above _ => true
  | _ => false

/-- A merge above the value is a merge, and is applied after the merges below. -/
@[grind →] theorem isApplied_of_isMergeAbove {o : Operator} (h : o.isMergeAbove = true) :
    o.isMerge = true ∧ o.isApplied = true := by
  unfold isMergeAbove at h
  split at h
  · exact ⟨rfl, rfl⟩
  · exact absurd h (by simp)

end Operator

namespace OperatorTable

variable {table : OperatorTable} {inner : Reduction}

section Run

variable {as : List Application} {cs : Contents}

/-- Apply operators that are no merges one after the other: the value in the end, and what each
operator has left. -/
def applyEach (table : OperatorTable) (value : Option Value) : Contents → Option Value × Contents
  | [] => (value, [])
  | c :: rest =>
    let applied := table.apply c.1 value c.2
    let after := applyEach table applied.1 rest
    (after.1, (c.1, applied.2) :: after.2)

/-- Applying operators leaves operands for these operators. -/
@[simp] theorem map_fst_applyEach (value : Option Value) (cs : Contents) :
    (table.applyEach value cs).2.map Prod.fst = cs.map Prod.fst := by
  induction cs generalizing value with
  | nil => rfl
  | cons c rest ih => simp only [applyEach, List.map_cons, ih]

/-- The entries that keep what operators have left at a base key. -/
def residueEntries (table : OperatorTable) (base : String) (lefts : Contents) : Tree :=
  (lefts.map Application.ofContent).filterMap (table.residueEntry? base)

/-- An operator that leaves nothing has no entry. -/
@[simp] theorem residueEntries_cons_nil (base : String) (o : Operator) (lefts : Contents) :
    table.residueEntries base ((o, []) :: lefts) = table.residueEntries base lefts := rfl

/-- An operator that leaves one operand has the operand as an entry. -/
@[simp] theorem residueEntries_cons_singleton (base : String) (o : Operator) (v : Value)
    (lefts : Contents) :
    table.residueEntries base ((o, [v]) :: lefts) =
      (Key.encode table ⟨o, base, false, false⟩, v) :: table.residueEntries base lefts := rfl

/-- Operators that are no merges are applied without inner trees. They leave the value unsettled,
unless there are none. -/
theorem foldlM_advance_of_not_merge (h : ∀ c ∈ cs, c.1.isMerge = false) (p : Progress) :
    (cs.map Application.ofContent).foldlM (table.advance inner) p =
      some ⟨(table.applyEach p.value cs).1, p.settled && cs.isEmpty,
        p.residue ++ (table.applyEach p.value cs).2.map Application.ofContent⟩ := by
  induction cs generalizing p with
  | nil => simp [applyEach]
  | cons c rest ih =>
    have hstep : table.advance inner p (.ofContent c) = some ⟨(table.apply c.1 p.value c.2).1, false,
        p.residue ++ [.ofContent (c.1, (table.apply c.1 p.value c.2).2)]⟩ := by
      have hmerge : (Application.ofContent c).operator.isMerge = false := h c List.mem_cons_self
      rw [advance, if_neg (by simp [hmerge])]
      rfl
    rw [List.map_cons, List.foldlM_cons, hstep, Option.bind_eq_bind, Option.bind_some,
      ih fun d hd => h d (List.mem_cons_of_mem _ hd)]
    simp [applyEach]

/-- Merges are made from a settled value, which they leave settled, and they leave nothing beside it. -/
theorem settle_foldlM_advance {β : Type} (h : ∀ a ∈ as, a.operator.isMerge = true) (p : Progress)
    (f : Option Value → List Application → Option β) :
    ((as.foldlM (table.advance inner) p).bind fun q =>
        (q.settle inner).bind fun value => f value q.residue) =
      (p.settle inner).bind fun value =>
        (as.foldlM (table.mergeOperands inner) value).bind fun value => f value p.residue := by
  cases as with
  | nil => rfl
  | cons a rest =>
    have hstep : table.advance inner p a = (p.settle inner).bind fun value =>
        (table.mergeOperands inner value a).map fun value => ⟨value, true, p.residue⟩ := by
      rw [advance, if_pos (h a List.mem_cons_self)]
      exact Option.bind_congr fun value _ => Option.map_eq_bind.symm
    have hrest : ∀ b ∈ rest, b.operator.isMerge = true := fun b hb => h b (List.mem_cons_of_mem _ hb)
    simp only [List.foldlM_cons, hstep, Option.bind_eq_bind, Option.bind_assoc, Option.bind_map]
    refine Option.bind_congr fun value _ => Option.bind_congr fun merged _ => ?_
    rw [Function.comp_apply, foldlM_advance_of_merges hrest, Option.bind_map]
    rfl

/-- Operators that change no value and leave nothing may be left out. -/
theorem applyEach_filter {p : Operator × Operands → Bool}
    (h : ∀ c ∈ cs, p c = false → ∀ value, table.apply c.1 value c.2 = (value, [])) (base : String)
    (value : Option Value) :
    (table.applyEach value (cs.filter p)).1 = (table.applyEach value cs).1 ∧
      table.residueEntries base (table.applyEach value (cs.filter p)).2 =
        table.residueEntries base (table.applyEach value cs).2 := by
  induction cs generalizing value with
  | nil => exact ⟨rfl, rfl⟩
  | cons c rest ih =>
    have hrest := ih (fun d hd => h d (List.mem_cons_of_mem _ hd)) (table.apply c.1 value c.2).1
    cases hp : p c with
    | true =>
      rw [List.filter_cons_of_pos hp]
      refine ⟨hrest.1, ?_⟩
      simp only [applyEach, residueEntries, List.map_cons, List.filterMap_cons] at hrest ⊢
      rw [hrest.2]
    | false =>
      rw [List.filter_cons_of_neg (by simp [hp])]
      simp only [applyEach, h c List.mem_cons_self hp value, residueEntries_cons_nil] at hrest ⊢
      exact hrest

end Run

section Residue

variable {base : String} {lefts : Contents}

/-- Residue is written entry by entry. -/
theorem residueEntries_cons (c : Operator × Operands) (lefts : Contents) :
    table.residueEntries base (c :: lefts) =
      (table.residueEntry? base (.ofContent c)).toList ++ table.residueEntries base lefts := by
  cases hentry : table.residueEntry? base (.ofContent c) <;> simp [residueEntries, hentry]

/-- Operands that an operator has left have an entry, which is read back as the operator with these
operands. -/
theorem exists_residueEntry {c : Operator × Operands} (hfits : c.1.FitsBefore table base.toList)
    (hleft : c.2 ≠ []) :
    ∃ e, table.residueEntry? base (.ofContent c) = some e ∧ table.identityOf e.1 = ⟨c.1, base⟩ ∧
      (Contribution.ofEntry table e).operands = c.2 := by
  obtain ⟨⟨spread, v⟩, hvalue⟩ := Option.ne_none_iff_exists'.1 (mt Operands.toValue?_eq_none_iff.1 hleft)
  have hwritable : Key.Writable table ⟨c.1, base, spread, false⟩ := hfits
  obtain ⟨hidentity, hspread⟩ := Key.identity_parse_encode hwritable
  refine ⟨(Key.encode table ⟨c.1, base, spread, false⟩, v),
    Option.map_eq_some_iff.2 ⟨_, hvalue, rfl⟩, hidentity, ?_⟩
  change Operands.ofValue (Key.parse table _).spread v = c.2
  rw [hspread]
  exact Operands.ofValue_toValue? hvalue

/-- Residue is read back as the operators that have left operands. -/
theorem mem_identities_residueEntries
    (hfits : ∀ c ∈ lefts, c.2 ≠ [] → c.1.FitsBefore table base.toList) {i : Identity} :
    i ∈ table.identities (table.residueEntries base lefts) ↔
      ∃ c ∈ lefts, c.2 ≠ [] ∧ ⟨c.1, base⟩ = i := by
  induction lefts with
  | nil => simp [residueEntries]
  | cons c rest ih =>
    rw [residueEntries_cons, identities_append, List.mem_append,
      ih fun d hd => hfits d (List.mem_cons_of_mem _ hd), List.exists_mem_cons_iff]
    refine or_congr ?_ Iff.rfl
    by_cases hleft : c.2 = []
    · have hnone : table.residueEntry? base (.ofContent c) = none :=
        Option.map_eq_none_iff.2 (Operands.toValue?_eq_none_iff.2 hleft)
      simp [hnone, hleft]
    · obtain ⟨e, he, hidentity, -⟩ := exists_residueEntry (hfits c List.mem_cons_self hleft) hleft
      simp [he, hleft, hidentity, eq_comm]

/-- What operators have left is read back as their operands. -/
theorem operandsAt_residueEntries
    (hfits : ∀ c ∈ lefts, c.2 ≠ [] → c.1.FitsBefore table base.toList) (o : Operator) :
    table.operandsAt ⟨o, base⟩ (table.residueEntries base lefts) =
      (lefts.filter fun c => c.1 = o).flatMap Prod.snd := by
  induction lefts with
  | nil => rfl
  | cons c rest ih =>
    have hfirst : table.operandsAt ⟨o, base⟩ (table.residueEntry? base (.ofContent c)).toList =
        if c.1 = o then c.2 else [] := by
      by_cases hleft : c.2 = []
      · have hnone : table.residueEntry? base (.ofContent c) = none :=
          Option.map_eq_none_iff.2 (Operands.toValue?_eq_none_iff.2 hleft)
        simp [hnone, hleft, operandsAt_eq_flatMap]
      · obtain ⟨e, he, hidentity, hoperands⟩ :=
          exists_residueEntry (hfits c List.mem_cons_self hleft) hleft
        by_cases ho : c.1 = o <;> simp [he, operandsAt_eq_flatMap, hidentity, hoperands, ho]
    rw [residueEntries_cons, operandsAt_append, hfirst,
      ih fun d hd => hfits d (List.mem_cons_of_mem _ hd)]
    by_cases ho : c.1 = o <;> simp [ho]

/-- Distinct operators have what they have left as their operands. -/
theorem operandsAt_residueEntries_of_mem
    (hfits : ∀ c ∈ lefts, c.2 ≠ [] → c.1.FitsBefore table base.toList)
    (hnodup : (lefts.map Prod.fst).Nodup) {c : Operator × Operands} (hc : c ∈ lefts) :
    table.operandsAt ⟨c.1, base⟩ (table.residueEntries base lefts) = c.2 := by
  have hfilter : lefts.filter (fun d => d.1 = c.1) = [c] := by
    have hsame : ∀ d ∈ lefts, decide (d.1 = c.1) = (d == c) := by
      intro d hd
      rw [Bool.eq_iff_iff, decide_eq_true_eq, beq_iff_eq]
      exact ⟨List.inj_on_of_nodup_map hnodup hd hc, fun h => h ▸ rfl⟩
    rw [List.filter_congr hsame, List.filter_beq, List.count_eq_one_of_mem hnodup.of_map hc]
    rfl
  rw [operandsAt_residueEntries hfits, hfilter, List.flatMap_singleton]

section Written

variable (hfits : ∀ c ∈ lefts, c.2 ≠ [] → c.1.FitsBefore table base.toList) (value : Option Value)

include hfits

/-- A value with residue beside it is written for the plain operator and for those that have left
operands. -/
theorem mem_identities_written {i : Identity} (hi : i ∈ table.identities
      ((value.toList.map fun v => ((Key.plain base).encode table, v)) ++ table.residueEntries base lefts)) :
    i.base = base ∧ (i.operator = .assign ∨ i.operator ∈ lefts.map Prod.fst) := by
  rw [identities_append, List.mem_append, mem_identities_residueEntries hfits] at hi
  rcases hi with hi | ⟨c, hc, -, rfl⟩
  · obtain ⟨e, he, rfl⟩ := List.mem_map.1 hi
    obtain ⟨v, -, rfl⟩ := List.mem_map.1 he
    rw [(reduced_plain table base v).1]
    exact ⟨rfl, .inl rfl⟩
  · exact ⟨rfl, .inr (List.mem_map_of_mem hc)⟩

variable (hassign : ∀ c ∈ lefts, c.1 ≠ .assign)

include hassign

/-- A value with residue beside it is read back as the only plain operand. -/
theorem operandsAt_assign_written :
    table.operandsAt ⟨.assign, base⟩ ((value.toList.map fun v => ((Key.plain base).encode table, v)) ++
      table.residueEntries base lefts) = value.toList := by
  have hnone : lefts.filter (fun c => c.1 = .assign) = [] :=
    List.filter_eq_nil_iff.2 fun c hc => by simpa using hassign c hc
  simp [operandsAt_plain, operandsAt_residueEntries hfits, hnone]

/-- What distinct operators have left is read back beside a value. -/
theorem operandsAt_written (hnodup : (lefts.map Prod.fst).Nodup) {c : Operator × Operands}
    (hc : c ∈ lefts) :
    table.operandsAt ⟨c.1, base⟩ ((value.toList.map fun v => ((Key.plain base).encode table, v)) ++
      table.residueEntries base lefts) = c.2 := by
  have hvalue : table.operandsAt ⟨c.1, base⟩
      (value.toList.map fun v => ((Key.plain base).encode table, v)) = [] := by
    refine operandsAt_eq_nil fun hmem => ?_
    obtain ⟨e, he, hidentity⟩ := List.mem_map.1 hmem
    obtain ⟨v, -, rfl⟩ := List.mem_map.1 he
    rw [(reduced_plain table base v).1] at hidentity
    exact hassign c hc (congrArg Identity.operator hidentity).symm
  rw [operandsAt_append, hvalue, List.nil_append, operandsAt_residueEntries_of_mem hfits hnodup hc]

end Written

end Residue

section Contents

variable {t : Tree} {base : String}

/-- The central operators with their operands at a base key, in the order of their ranks. -/
def centralContents (table : OperatorTable) (base : String) (t : Tree) : Contents :=
  Operator.centrals.map fun o => (o, table.operandsAt ⟨o, base⟩ t)

/-- Test whether a central operator is declared at a base key. -/
def hasCentral (table : OperatorTable) (base : String) (t : Tree) : Bool :=
  Operator.centrals.any fun o => ⟨o, base⟩ ∈ table.identities t

/-- The merges below the value at a base key, from the value outwards. -/
def mergesBelow (table : OperatorTable) (base : String) (t : Tree) : Contents :=
  outwardContents ((contentsAt (table.declared t) base).filter fun c => c.1.isMergeBelow)

/-- The merges above the value at a base key, from the value outwards. -/
def mergesAbove (table : OperatorTable) (base : String) (t : Tree) : Contents :=
  outwardContents ((contentsAt (table.declared t) base).filter fun c => c.1.isMergeAbove)

/-- The central operators that are declared at a base key, with their operands. -/
def declaredCentrals (table : OperatorTable) (base : String) (t : Tree) : Contents :=
  (table.centralContents base t).filter fun c => ⟨c.1, base⟩ ∈ table.identities t

/-- The listed operators are central. -/
theorem isCentral_of_mem_centralContents {c : Operator × Operands}
    (hc : c ∈ table.centralContents base t) : c.1.isCentral = true := by
  obtain ⟨o, ho, rfl⟩ := List.mem_map.1 hc
  exact Operator.mem_centrals_iff.1 ho

/-- All central operators are listed, in their order. -/
@[simp] theorem map_fst_centralContents (base : String) (t : Tree) :
    (table.centralContents base t).map Prod.fst = Operator.centrals := by
  rw [centralContents, List.map_map]
  exact List.map_id _

/-- The merges below are merges below. -/
theorem isMergeBelow_of_mem_mergesBelow {c : Operator × Operands}
    (hc : c ∈ table.mergesBelow base t) :
    c ∈ contentsAt (table.declared t) base ∧ c.1.isMergeBelow = true :=
  List.mem_filter.1 ((perm_outwardContents _).mem_iff.1 hc)

/-- The merges above are merges above. -/
theorem isMergeAbove_of_mem_mergesAbove {c : Operator × Operands}
    (hc : c ∈ table.mergesAbove base t) :
    c ∈ contentsAt (table.declared t) base ∧ c.1.isMergeAbove = true :=
  List.mem_filter.1 ((perm_outwardContents _).mem_iff.1 hc)

/-- Central operators do nothing without operands. -/
theorem apply_nil (table : OperatorTable) {o : Operator} (ho : o.isCentral = true)
    (value : Option Value) : table.apply o value [] = (value, []) := by
  cases o <;> simp [Operator.isCentral] at ho <;> rfl

/-- Central operators that are not declared have no operands, and do nothing. -/
theorem apply_of_not_declared {c : Operator × Operands} (hc : c ∈ table.centralContents base t)
    (h : (⟨c.1, base⟩ : Identity) ∉ table.identities t) (value : Option Value) :
    table.apply c.1 value c.2 = (value, []) := by
  have hcentral := isCentral_of_mem_centralContents hc
  obtain ⟨o, -, rfl⟩ := List.mem_map.1 hc
  rw [operandsAt_eq_nil h, apply_nil table hcentral]

/-- No central operator is declared exactly if none is left of them. -/
theorem isEmpty_declaredCentrals (base : String) (t : Tree) :
    (table.declaredCentrals base t).isEmpty = !table.hasCentral base t := by
  rw [Bool.eq_iff_iff, List.isEmpty_iff, declaredCentrals, List.filter_eq_nil_iff]
  simp [centralContents, hasCentral]

/-- Those central operators that are declared do what all of them do. -/
theorem applyEach_declaredCentrals (base : String) (t : Tree) (value : Option Value) :
    (table.applyEach value (table.declaredCentrals base t)).1 =
        (table.applyEach value (table.centralContents base t)).1 ∧
      table.residueEntries base (table.applyEach value (table.declaredCentrals base t)).2 =
        table.residueEntries base (table.applyEach value (table.centralContents base t)).2 :=
  applyEach_filter (fun _ hc h => apply_of_not_declared hc (of_decide_eq_false h)) base value

/-- Where no central operator is declared, none of them changes a value or leaves anything. -/
theorem applyEach_of_hasCentral_eq_false (h : table.hasCentral base t = false)
    (value : Option Value) :
    (table.applyEach value (table.centralContents base t)).1 = value ∧
      table.residueEntries base (table.applyEach value (table.centralContents base t)).2 = [] := by
  have hempty : (table.declaredCentrals base t).isEmpty = true := by
    rw [isEmpty_declaredCentrals, h, Bool.not_false]
  obtain ⟨hvalue, hresidue⟩ := applyEach_declaredCentrals base t value
  rw [← hvalue, ← hresidue, List.isEmpty_iff.1 hempty]
  exact ⟨rfl, rfl⟩

/-- The central operators that are declared are those among the declarations. -/
theorem perm_declaredCentrals (base : String) (t : Tree) :
    ((contentsAt (table.declared t) base).filter fun c => c.1.isCentral).Perm
      (table.declaredCentrals base t) := by
  have hcentrals : ((table.centralContents base t).map Prod.fst).Nodup := by
    rw [map_fst_centralContents]
    decide
  refine (List.perm_ext_iff_of_nodup ((nodup_contentsAt table t base).of_map.filter _)
    (hcentrals.of_map.filter _)).2 fun c => ?_
  rw [List.mem_filter, List.mem_filter, mem_contentsAt_iff, decide_eq_true_eq]
  constructor
  · rintro ⟨⟨i, hi, rfl, -, rfl⟩, hcentral⟩
    exact ⟨List.mem_map.2 ⟨i.operator, Operator.mem_centrals_iff.2 hcentral, rfl⟩, hi⟩
  · rintro ⟨hc, hi⟩
    have hcentral := isCentral_of_mem_centralContents hc
    obtain ⟨o, -, rfl⟩ := List.mem_map.1 hc
    exact ⟨⟨_, hi, rfl, Operator.isRootMerge_of_isCentral hcentral, rfl⟩, hcentral⟩

/-- Where no custom operator is declared, what is applied after the merges below is a central
operator or a merge above. -/
theorem perm_applied_of_builtin
    (hcustom : ∀ c ∈ contentsAt (table.declared t) base, ∀ name, c.1 ≠ .custom name) :
    ((contentsAt (table.declared t) base).filter fun c => c.1.isApplied).Perm
      (table.declaredCentrals base t ++ table.mergesAbove base t) := by
  have hsplit := List.filter_append_perm (fun c : Operator × Operands => c.1.isCentral)
    ((contentsAt (table.declared t) base).filter fun c => c.1.isApplied)
  have hcentrals : ((contentsAt (table.declared t) base).filter fun c => c.1.isApplied).filter
      (fun c => c.1.isCentral) =
        (contentsAt (table.declared t) base).filter fun c => c.1.isCentral := by
    rw [List.filter_filter]
    refine List.filter_congr fun c _ => ?_
    cases hc : c.1.isCentral <;> simp [hc, Operator.isApplied_of_isCentral]
  have habove : ((contentsAt (table.declared t) base).filter fun c => c.1.isApplied).filter
      (fun c => !c.1.isCentral) =
        (contentsAt (table.declared t) base).filter fun c => c.1.isMergeAbove := by
    rw [List.filter_filter]
    refine List.filter_congr fun c hc => ?_
    cases ho : c.1 with
    | merge side level => cases side <;> rfl
    | custom name => exact absurd ho (hcustom c hc name)
    | _ => rfl
  rw [hcentrals, habove] at hsplit
  exact hsplit.symm.trans ((perm_declaredCentrals base t).append (perm_outwardContents _).symm)

/-- Central operators have a lower priority than merges above the value. -/
theorem priority_central_lt {o o' : Operator} {base : List Char} (ho : o.isCentral = true)
    (ho' : o'.isMergeAbove = true) (hfits : o'.FitsBefore table base) :
    table.priority o < table.priority o' := by
  cases o' with
  | merge side level =>
    cases side with
    | below => simp [Operator.isMergeAbove] at ho'
    | above =>
      have hone : 1 ≤ level := hfits.1
      have hlevel : 1 ≤ level.toNat := UInt32.le_iff_toNat_le.1 hone
      rw [priority_of_isCentral ho]
      simp only [priority, levelStep]
      omega
  | _ => simp [Operator.isMergeAbove] at ho'

/-- Central operators and merges above are told apart by their priorities. -/
theorem tellsApart_of_builtin (base : String) (t : Tree) :
    table.TellsApart ((table.declaredCentrals base t ++ table.mergesAbove base t).map Prod.fst) := by
  have hcentral {o : Operator} (ho : o ∈ (table.declaredCentrals base t).map Prod.fst) :
      o.isCentral = true := by
    obtain ⟨c, hc, rfl⟩ := List.mem_map.1 ho
    exact isCentral_of_mem_centralContents (List.mem_filter.1 hc).1
  have habove {o : Operator} (ho : o ∈ (table.mergesAbove base t).map Prod.fst) :
      o.isMergeAbove = true ∧ o.FitsBefore table base.toList := by
    obtain ⟨c, hc, rfl⟩ := List.mem_map.1 ho
    obtain ⟨hc, habove⟩ := isMergeAbove_of_mem_mergesAbove hc
    exact ⟨habove, fitsBefore_of_mem_contentsAt table hc⟩
  have hapart {o o' : Operator} (ho : o ∈ (table.declaredCentrals base t).map Prod.fst)
      (ho' : o' ∈ (table.mergesAbove base t).map Prod.fst) :
      table.priority o ≠ table.priority o' :=
    Int.ne_of_lt (priority_central_lt (hcentral ho) (habove ho').1 (habove ho').2)
  have hmerges : table.TellsApart ((table.mergesAbove base t).map Prod.fst) :=
    tellsApart_of_merges (fun o ho => (Operator.isApplied_of_isMergeAbove (habove ho).1).1)
      fun o ho => (Operator.isApplied_of_isMergeAbove (habove ho).1).2
  intro o ho o' ho' hpriority
  rw [List.map_append, List.mem_append] at ho ho'
  rcases ho with ho | ho <;> rcases ho' with ho' | ho'
  · exact Or.inr ⟨hcentral ho, hcentral ho'⟩
  · exact absurd hpriority (hapart ho ho')
  · exact absurd hpriority.symm (hapart ho' ho)
  · exact hmerges o ho o' ho' hpriority

/-- Central operators and merges above stand in the order in which they are applied. -/
theorem pairwise_of_builtin (base : String) (t : Tree) :
    (table.declaredCentrals base t ++ table.mergesAbove base t).Pairwise
      fun c d => table.AppliesBefore c.1 d.1 := by
  have hranks : (table.centralContents base t).Pairwise fun c d => table.AppliesBefore c.1 d.1 := by
    simp only [centralContents, Operator.centrals, List.map_cons, List.map_nil]
    simp [AppliesBefore, priority, Operator.centralRank]
  have habove : (table.mergesAbove base t).Pairwise fun c d => table.AppliesBefore c.1 d.1 := by
    have hmerge : ∀ c ∈ (contentsAt (table.declared t) base).filter (fun c => c.1.isMergeAbove),
        c.1.isMerge = true :=
      fun c hc => (Operator.isApplied_of_isMergeAbove (List.mem_filter.1 hc).2).1
    refine (pairwise_outwardContents hmerge).imp_of_mem fun hc hd hcd => ?_
    have hc := Operator.isApplied_of_isMergeAbove (isMergeAbove_of_mem_mergesAbove hc).2
    have hd := Operator.isApplied_of_isMergeAbove (isMergeAbove_of_mem_mergesAbove hd).2
    exact appliesBefore_of_outwardRank_le hc.1 hd.1 hc.2 hd.2 hcd
  refine List.pairwise_append.2 ⟨hranks.filter _, habove, fun c hc d hd => ?_⟩
  have hcentral := isCentral_of_mem_centralContents (List.mem_filter.1 hc).1
  obtain ⟨hd, hmerge⟩ := isMergeAbove_of_mem_mergesAbove hd
  exact Or.inl (priority_central_lt hcentral hmerge (fitsBefore_of_mem_contentsAt table hd))

end Contents

section Base

variable {t : Tree} {base : String}

/-- The value that a base key has before the central operators: the last plain operand, merged with the
patches below. -/
def valueBelow (table : OperatorTable) (inner : Reduction) (base : String) (t : Tree) :
    Option (Option Value) :=
  (reducePresent inner (table.operandsAt ⟨.assign, base⟩ t).getLast?).bind fun start =>
    (table.mergesBelow base t).foldlM
      (fun value c => table.mergeOperands inner value (.ofContent c)) start

/-- The value after the central operators at a base key. It is reduced again if any of them is
declared, and merged from there on. -/
def settleCentral (table : OperatorTable) (inner : Reduction) (base : String) (t : Tree)
    (value : Option Value) : Option (Option Value) :=
  if table.hasCentral base t then
    reducePresent inner (table.applyEach value (table.centralContents base t)).1
  else some value

/-- Without custom operators a base key is reduced from its last plain operand by the merges below,
the central operators and the merges above; what the central operators leave stands beside the
value. -/
theorem reduceBase_of_builtin
    (hcustom : ∀ c ∈ contentsAt (table.declared t) base, ∀ name, c.1 ≠ .custom name) :
    table.reduceBase inner base (numbered (contentsAt (table.declared t) base)) =
      (reducePresent inner (table.operandsAt ⟨.assign, base⟩ t).getLast?).bind fun start =>
        ((table.mergesBelow base t).foldlM
            (fun value c => table.mergeOperands inner value (.ofContent c)) start).bind fun value =>
          (table.settleCentral inner base t value).bind fun settled =>
            ((table.mergesAbove base t).foldlM
                (fun value c => table.mergeOperands inner value (.ofContent c)) settled).map
              fun final =>
                (final.toList.map fun v => ((Key.plain base).encode table, v)) ++
                  table.residueEntries base
                    (table.applyEach value (table.centralContents base t)).2 := by
  have hbelow := (perm_outwardContents
    ((contentsAt (table.declared t) base).filter fun c => c.1.isMergeBelow)).symm
  have hmerge : ∀ c ∈ (contentsAt (table.declared t) base).filter (fun c => c.1.isMergeBelow),
      c.1.isMerge = true := fun c hc => Operator.isMerge_of_isMergeBelow (List.mem_filter.1 hc).2
  have hcentral : ∀ c ∈ table.declaredCentrals base t, c.1.isMerge = false := fun c hc =>
    Operator.isMerge_of_isCentral (isCentral_of_mem_centralContents (List.mem_filter.1 hc).1)
  have habove : ∀ a ∈ (table.mergesAbove base t).map Application.ofContent,
      a.operator.isMerge = true := by
    intro a ha
    obtain ⟨c, hc, rfl⟩ := List.mem_map.1 ha
    exact (Operator.isApplied_of_isMergeAbove (isMergeAbove_of_mem_mergesAbove hc).2).1
  rw [reduceBase_declared inner hbelow (perm_applied_of_builtin hcustom)
    (pairwise_outwardContents hmerge) (tellsApart_of_builtin base t) (pairwise_of_builtin base t),
    reduceArranged]
  apply Option.bind_congr
  intro start _
  rw [List.foldlM_map]
  apply Option.bind_congr
  intro value _
  obtain ⟨hvalue, hresidue⟩ := applyEach_declaredCentrals base t value
  have hsettle : Progress.settle inner ⟨(table.applyEach value (table.declaredCentrals base t)).1,
      true && (table.declaredCentrals base t).isEmpty,
      [] ++ (table.applyEach value (table.declaredCentrals base t)).2.map Application.ofContent⟩ =
        table.settleCentral inner base t value := by
    rw [Bool.true_and, isEmpty_declaredCentrals, Progress.settle, settleCentral]
    cases hnone : table.hasCentral base t with
    | true => exact congrArg (reducePresent inner) hvalue
    | false => exact congrArg some (hvalue.trans (applyEach_of_hasCentral_eq_false hnone value).1)
  rw [List.map_append, List.foldlM_append, foldlM_advance_of_not_merge hcentral]
  refine (settle_foldlM_advance habove _ fun value residue => some ((value.toList.map fun v =>
    ((Key.plain base).encode table, v)) ++ residue.filterMap (table.residueEntry? base))).trans ?_
  rw [hsettle, ← hresidue]
  apply Option.bind_congr
  intro settled _
  rw [List.foldlM_map]
  exact Option.map_eq_bind.symm

end Base

section BesideCentral

variable {t u v : Tree}

/-- Trees that hold the same for all operators but the central ones. -/
structure SameBesideCentral (table : OperatorTable) (t u : Tree) : Prop where
  identities_eq : (table.identities t).filter (fun i => !i.operator.isCentral) =
    (table.identities u).filter fun i => !i.operator.isCentral
  operandsAt_eq : ∀ i : Identity, i.operator.isCentral = false →
    table.operandsAt i t = table.operandsAt i u

namespace SameBesideCentral

/-- Holding the same goes both ways. -/
theorem symm (h : SameBesideCentral table t u) : SameBesideCentral table u t :=
  ⟨h.identities_eq.symm, fun i hi => (h.operandsAt_eq i hi).symm⟩

/-- Trees that hold the same as one tree hold the same. -/
theorem trans (htu : SameBesideCentral table t u) (huv : SameBesideCentral table u v) :
    SameBesideCentral table t v :=
  ⟨htu.identities_eq.trans huv.identities_eq,
    fun i hi => (htu.operandsAt_eq i hi).trans (huv.operandsAt_eq i hi)⟩

variable (h : SameBesideCentral table t u)

include h

/-- Identities of a kind without central operators have the same operators and operands. -/
theorem contents_eq {q : Identity → Bool} (hq : ∀ i, q i = true → i.operator.isCentral = false) :
    ((table.identities t).filter q).eraseDups.map (fun i => (i.operator, table.operandsAt i t)) =
      ((table.identities u).filter q).eraseDups.map fun i => (i.operator, table.operandsAt i u) := by
  have hpicked (w : Tree) : (table.identities w).filter q =
      ((table.identities w).filter fun i => !i.operator.isCentral).filter q := by
    rw [List.filter_filter]
    refine List.filter_congr fun i _ => ?_
    cases hqi : q i with
    | false => rfl
    | true => rw [hq i hqi]; rfl
  rw [hpicked t, hpicked u, h.identities_eq, ← hpicked u]
  refine List.map_congr_left fun i hi => ?_
  rw [h.operandsAt_eq i (hq i (List.mem_filter.1 (List.mem_eraseDups.1 hi)).2)]

/-- Operators of a kind that are not central are declared alike at a base key. -/
theorem filter_contentsAt_eq {p : Operator → Bool} (hp : ∀ o, p o = true → o.isCentral = false)
    (base : String) :
    (contentsAt (table.declared t) base).filter (fun c => p c.1) =
      (contentsAt (table.declared u) base).filter fun c => p c.1 := by
  rw [filter_contentsAt, filter_contentsAt]
  exact h.contents_eq fun i hi => hp _ (Bool.and_eq_true_iff.1 hi).1

/-- The merges below the value are the same. -/
theorem mergesBelow_eq (base : String) : table.mergesBelow base t = table.mergesBelow base u := by
  rw [mergesBelow, mergesBelow, h.filter_contentsAt_eq (p := Operator.isMergeBelow) (by grind)]

/-- The merges above the value are the same. -/
theorem mergesAbove_eq (base : String) : table.mergesAbove base t = table.mergesAbove base u := by
  rw [mergesAbove, mergesAbove, h.filter_contentsAt_eq (p := Operator.isMergeAbove) (by grind)]

/-- The merges with the whole tree are the same. -/
theorem rootContents_eq :
    rootContents (table.declared t) = rootContents (table.declared u) := by
  rw [rootContents_declared, rootContents_declared]
  exact h.contents_eq (q := Identity.isRootMerge) (by grind [Identity.isRootMerge])

/-- A base key without custom operators is reduced alike if the central operators do the same there and
are settled alike behind the value that they meet. -/
theorem reduceBase_eq {base : String}
    (hcustom : ∀ c ∈ contentsAt (table.declared t) base, ∀ name, c.1 ≠ .custom name)
    (hcustom' : ∀ c ∈ contentsAt (table.declared u) base, ∀ name, c.1 ≠ .custom name)
    (happly : ∀ value, table.applyEach value (table.centralContents base t) =
      table.applyEach value (table.centralContents base u))
    (hsettle : ∀ value, table.valueBelow inner base u = some value →
      table.settleCentral inner base t value = table.settleCentral inner base u value) :
    table.reduceBase inner base (numbered (contentsAt (table.declared t) base)) =
      table.reduceBase inner base (numbered (contentsAt (table.declared u) base)) := by
  rw [reduceBase_of_builtin hcustom, reduceBase_of_builtin hcustom', h.operandsAt_eq _ rfl,
    h.mergesBelow_eq, h.mergesAbove_eq]
  refine Option.bind_congr fun start hstart => Option.bind_congr fun value hvalue => ?_
  have hbelow : table.valueBelow inner base u = some value := by
    rw [valueBelow, hstart]
    exact hvalue
  rw [hsettle value hbelow, happly]

end SameBesideCentral

end BesideCentral

end OperatorTable

end Overlay
