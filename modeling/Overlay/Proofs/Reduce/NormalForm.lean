import Overlay.Proofs.Reduce.Operands

/-!
# The normal form of reduced trees

A reduced tree is in normal form: its keys are written canonically and belong to distinct
identities, none of them is a merge or a collection of plain operands, a spread key holds at least
two operands, and the trees that its plain keys assign are in normal form as well.

The entries of a level come from many places, but each of them is written for an identity of its
own, so no entry is written over another.
-/

namespace Overlay

/-- An entry as reduction leaves it: a canonical key that is no merge, and that is spread only to
hold several operands which an operator has left. -/
structure IsReducedEntry (table : OperatorTable) (e : String × Value) : Prop where
  canonical : (Key.parse table e.1).encode table = e.1
  not_merge : (Key.parse table e.1).operator.isMerge = false
  not_collection : (Key.parse table e.1).operator.isAssign = true →
    (Key.parse table e.1).spread = false
  several : (Key.parse table e.1).spread = true → ∃ items, e.2 = .array items ∧ 2 ≤ items.length

/-- A tree in normal form, down to the trees that its plain keys assign. -/
inductive Tree.Normal (table : OperatorTable) : Tree → Prop
  | intro {t : Tree} (distinct : (table.identities t).Nodup)
      (entries : ∀ e ∈ t, IsReducedEntry table e)
      (values : ∀ e ∈ t, (Key.parse table e.1).operator = .assign →
        ∀ u, e.2 = .tree u → Tree.Normal table u) :
      Tree.Normal table t

/-- A value in normal form: a tree in normal form, or no tree at all. -/
def Value.Normal (table : OperatorTable) (v : Value) : Prop :=
  ∀ t, v = .tree t → Tree.Normal table t

/-- Reduced entries for distinct identities at some base keys. -/
structure WrittenFor (table : OperatorTable) (bases : List String) (entries : Tree) : Prop where
  distinct : (table.identities entries).Nodup
  base_mem : ∀ i ∈ table.identities entries, i.base ∈ bases
  reduced : ∀ e ∈ entries, IsReducedEntry table e

/-- A reduction whose results are in normal form. -/
def Reduction.Normalizes (inner : Reduction) (table : OperatorTable) : Prop :=
  ∀ t r, inner t = some r → Tree.Normal table r

namespace OperatorTable

variable {table : OperatorTable} {inner : Reduction}

section Residue

variable {as : List Application}

/-- Applying an operator adds it to the residue, unless it is a merge. -/
theorem operators_advance {p q : Progress} {a : Application} (h : table.advance inner p a = some q) :
    q.residue.map Application.operator =
      p.residue.map Application.operator ++ [a.operator].filter fun o => !o.isMerge := by
  unfold advance at h
  split at h
  · next hmerge =>
    obtain ⟨value, -, h⟩ := Option.bind_eq_some_iff.1 h
    obtain ⟨value', -, h⟩ := Option.bind_eq_some_iff.1 h
    obtain rfl := Option.some.inj h
    simp [hmerge]
  · next hmerge =>
    obtain rfl := Option.some.inj h
    simp [hmerge]

/-- The residue of a run belongs to the operators that are no merges, in their order. -/
theorem operators_foldlM_advance {p q : Progress} (h : as.foldlM (table.advance inner) p = some q) :
    q.residue.map Application.operator = p.residue.map Application.operator ++
      (as.map Application.operator).filter fun o => !o.isMerge := by
  induction as generalizing p with
  | nil =>
    obtain rfl := Option.some.inj h
    simp
  | cons a rest ih =>
    rw [List.foldlM_cons] at h
    obtain ⟨p₁, hp₁, h⟩ := Option.bind_eq_some_iff.1 h
    rw [ih h, operators_advance hp₁, List.append_assoc, ← List.filter_append]
    rfl

/-- The residue of a base key belongs to its operators, merges and the plain one left out. -/
theorem operators_applyAll {value : Option Value} {residue : List Application}
    (h : table.applyAll inner as = some (value, residue)) :
    (residue.map Application.operator).Perm
      ((as.map Application.operator).filter fun o => !o.isAssign && !o.isMerge) := by
  obtain ⟨start, -, h⟩ := Option.bind_eq_some_iff.1 h
  obtain ⟨value₁, -, h⟩ := Option.bind_eq_some_iff.1 h
  obtain ⟨p, hp, h⟩ := Option.bind_eq_some_iff.1 h
  obtain ⟨value₂, -, h⟩ := Option.bind_eq_some_iff.1 h
  obtain ⟨-, rfl⟩ := Prod.mk.inj (Option.some.inj h)
  have hbelow (o : Operator) : (!o.isMerge && (!o.isAssign && !o.isMergeBelow)) =
      (!o.isAssign && !o.isMerge) := by
    cases o with
    | merge side level => cases side <;> rfl
    | _ => rfl
  have hpicked : (as.filter fun a => !a.operator.isAssign && !a.operator.isMergeBelow).map
      Application.operator =
        (as.map Application.operator).filter fun o => !o.isAssign && !o.isMergeBelow :=
    (List.filter_map (f := Application.operator)
      (p := fun o => !o.isAssign && !o.isMergeBelow)).symm
  generalize as.filter (fun a => !a.operator.isAssign && !a.operator.isMergeBelow) = others
    at hp hpicked
  have horder : ((table.inOrder others).map Application.operator).Perm
      (others.map Application.operator) := (orderByPlace_perm _ others).map _
  rw [operators_foldlM_advance hp, List.map_nil, List.nil_append]
  refine (horder.filter _).trans ?_
  rw [hpicked, List.filter_filter]
  simp only [hbelow]
  exact List.Perm.refl _

/-- The residue of a base key belongs to operators that fit before it, merges and the plain one
left out. -/
theorem fits_of_mem_residue {base : String} {value : Option Value} {residue : List Application}
    (hfits : ∀ a ∈ as, a.operator.FitsBefore table base.toList)
    (h : table.applyAll inner as = some (value, residue)) {a : Application} (ha : a ∈ residue) :
    a.operator.FitsBefore table base.toList ∧ a.operator.isAssign = false ∧
      a.operator.isMerge = false := by
  obtain ⟨hmem, hkind⟩ := List.mem_filter.1
    ((operators_applyAll h).mem_iff.1 (List.mem_map_of_mem ha))
  obtain ⟨b, hb, heq⟩ := List.mem_map.1 hmem
  simp only [Bool.and_eq_true, Bool.not_eq_true'] at hkind
  exact ⟨heq ▸ hfits b hb, hkind⟩

end Residue

section Entries

variable {base : String}

/-- The key of the value is canonical, and read back as the plain key of its base key. -/
theorem reduced_plain (table : OperatorTable) (base : String) (value : Value) :
    table.identityOf ((Key.plain base).encode table) = ⟨.assign, base⟩ ∧
      IsReducedEntry table ((Key.plain base).encode table, value) := by
  have hwritable : (Key.plain base).Writable table := trivial
  obtain ⟨hidentity, hspread⟩ := Key.identity_parse_encode hwritable
  have hoperator : (Key.parse table ((Key.plain base).encode table)).operator = .assign :=
    congrArg Identity.operator hidentity
  refine ⟨hidentity, Key.encode_parse_encode hwritable, ?_, fun _ => hspread, fun h => ?_⟩
  · rw [hoperator]
    rfl
  · rw [hspread] at h
    exact absurd h (by simp [Key.plain])

/-- The entry of a value is read back as the value, which is its only operand. -/
theorem operandsAt_plain (table : OperatorTable) (base : String) (value : Option Value) :
    table.operandsAt ⟨.assign, base⟩
      (value.toList.map fun v => ((Key.plain base).encode table, v)) = value.toList := by
  have hwritable : (Key.plain base).Writable table := trivial
  have hidentity : table.identityOf ((Key.plain base).encode table) = ⟨.assign, base⟩ :=
    (Key.identity_parse_encode hwritable).1
  have hspread : (Key.parse table ((Key.plain base).encode table)).spread = false :=
    (Key.identity_parse_encode hwritable).2
  rw [operandsAt_eq_flatMap]
  cases value with
  | none => rfl
  | some v =>
    simp [hidentity, Contribution.operands, Contribution.ofEntry, Operands.ofValue, hspread]

/-- What an operator leaves is written for the operator at its base key. -/
theorem reduced_residue {a : Application} {e : String × Value}
    (hfits : a.operator.FitsBefore table base.toList) (hassign : a.operator.isAssign = false)
    (hmerge : a.operator.isMerge = false) (h : table.residueEntry? base a = some e) :
    table.identityOf e.1 = ⟨a.operator, base⟩ ∧ IsReducedEntry table e := by
  obtain ⟨⟨spread, value⟩, hvalue, rfl⟩ := Option.map_eq_some_iff.1 h
  have hwritable : Key.Writable table ⟨a.operator, base, spread, false⟩ := hfits
  obtain ⟨hidentity, hspread⟩ := Key.identity_parse_encode hwritable
  have hoperator : (Key.parse table
      (Key.encode table ⟨a.operator, base, spread, false⟩)).operator = a.operator :=
    congrArg Identity.operator hidentity
  refine ⟨hidentity, Key.encode_parse_encode hwritable, ?_, fun h => ?_, fun h => ?_⟩
  · rw [hoperator, hmerge]
  · rw [hoperator, hassign] at h
    exact absurd h (by simp)
  · obtain rfl : spread = true := hspread.symm.trans h
    unfold Operands.toValue? at hvalue
    split at hvalue
    · simp at hvalue
    · simp at hvalue
    · next hnil hone =>
      obtain ⟨-, rfl⟩ := Prod.mk.inj (Option.some.inj hvalue)
      refine ⟨_, rfl, ?_⟩
      match hoperands : a.operands with
      | [] => exact absurd hoperands hnil
      | [operand] => exact absurd hoperands (hone operand)
      | _ :: _ :: rest => simp

/-- What operators leave is written for some of them, in their order. -/
theorem sublist_identities_residue {residue : List Application}
    (h : ∀ a ∈ residue, ∀ e, table.residueEntry? base a = some e →
      table.identityOf e.1 = ⟨a.operator, base⟩) :
    (table.identities (residue.filterMap (table.residueEntry? base))).Sublist
      ((residue.map Application.operator).map fun o => ⟨o, base⟩) := by
  induction residue with
  | nil => exact List.Sublist.refl _
  | cons a rest ih =>
    have hrest := ih fun b hb => h b (List.mem_cons_of_mem _ hb)
    cases he : table.residueEntry? base a with
    | none =>
      rw [List.filterMap_cons_none he]
      exact hrest.cons _
    | some e =>
      rw [List.filterMap_cons_some he, identities, List.map_cons, h a List.mem_cons_self e he]
      exact hrest.cons_cons _

/-- A base key is reduced to entries for distinct identities. -/
theorem writtenFor_reduceBase {as : List Application} {entries : Tree}
    (hfits : ∀ a ∈ as, a.operator.FitsBefore table base.toList)
    (hdistinct : (as.map Application.operator).Nodup)
    (h : table.reduceBase inner base as = some entries) : WrittenFor table [base] entries := by
  obtain ⟨⟨value, residue⟩, hall, h⟩ := Option.bind_eq_some_iff.1 h
  obtain rfl := Option.some.inj h
  have hfrom {a : Application} (ha : a ∈ residue) := fits_of_mem_residue hfits hall ha
  have hresidue {a : Application} (ha : a ∈ residue) {e : String × Value}
      (he : table.residueEntry? base a = some e) :
      table.identityOf e.1 = ⟨a.operator, base⟩ ∧ IsReducedEntry table e :=
    reduced_residue (hfrom ha).1 (hfrom ha).2.1 (hfrom ha).2.2 he
  have hplain {e : String × Value}
      (he : e ∈ value.toList.map fun value => ((Key.plain base).encode table, value)) :
      table.identityOf e.1 = ⟨.assign, base⟩ ∧ IsReducedEntry table e := by
    obtain ⟨value, -, rfl⟩ := List.mem_map.1 he
    exact reduced_plain table base value
  have hwritten {i : Identity}
      (hi : i ∈ table.identities (residue.filterMap (table.residueEntry? base))) :
      i.operator.isAssign = false ∧ i.base = base := by
    obtain ⟨e, he, rfl⟩ := List.mem_map.1 hi
    obtain ⟨a, ha, he⟩ := List.mem_filterMap.1 he
    rw [(hresidue ha he).1]
    exact ⟨(hfrom ha).2.1, rfl⟩
  refine ⟨?_, fun i hi => ?_, fun e he => ?_⟩
  · rw [identities_append]
    refine List.nodup_append.2 ⟨?_, ?_, fun i hi j hj hij => ?_⟩
    · cases value <;> simp
    · have hnodup : ((residue.map Application.operator).map fun o => Identity.mk o base).Nodup :=
        ((operators_applyAll hall).nodup_iff.2 (hdistinct.filter _)).map
          fun o o' heq => congrArg Identity.operator heq
      exact (sublist_identities_residue fun a ha e he => (hresidue ha he).1).nodup hnodup
    · obtain ⟨e, he, rfl⟩ := List.mem_map.1 hi
      have hassign := (hwritten hj).1
      rw [← hij, (hplain he).1] at hassign
      exact absurd hassign (by simp [Operator.isAssign])
  · rw [identities_append] at hi
    rcases List.mem_append.1 hi with hi | hi
    · obtain ⟨e, he, rfl⟩ := List.mem_map.1 hi
      rw [(hplain he).1]
      exact List.mem_singleton_self base
    · exact List.mem_singleton.2 (hwritten hi).2
  · rcases List.mem_append.1 he with he | he
    · exact (hplain he).2
    · obtain ⟨a, ha, he⟩ := List.mem_filterMap.1 he
      exact (hresidue ha he).2

end Entries

section Values

variable (hinner : inner.Normalizes table)

include hinner

/-- Reducing a value brings it into normal form. -/
theorem normal_of_reduceWith {v w : Value} (h : v.reduceWith inner = some w) : w.Normal table := by
  intro t ht
  cases v with
  | tree u =>
    obtain ⟨r, hr, rfl⟩ := Option.map_eq_some_iff.1 h
    obtain rfl := Value.tree.inj ht
    exact hinner u r hr
  | _ =>
    obtain rfl := Option.some.inj h
    simp at ht

/-- Reducing a value that may be absent brings it into normal form. -/
theorem normal_of_reducePresent {value w : Option Value} (h : reducePresent inner value = some w) :
    ∀ v ∈ w, v.Normal table := by
  intro v hv
  cases value with
  | none =>
    obtain rfl := Option.some.inj h
    simp at hv
  | some value =>
    obtain ⟨v', hv', rfl⟩ := Option.map_eq_some_iff.1 h
    obtain rfl := Option.some.inj hv
    exact normal_of_reduceWith hinner hv'

/-- Merging a patch with a value in normal form gives a value in normal form. -/
theorem normal_of_mergePatch {side : Side} {value : Option Value} {patch w : Value}
    (hvalue : ∀ v ∈ value, v.Normal table) (h : table.mergePatch inner side value patch = some w) :
    w.Normal table := by
  have hkept {v : Value} (hv : value = some v) (hw : some v = some w) : w.Normal table :=
    hvalue w (hv.trans hw)
  have hpatch : patch.reduceWith inner = some w → w.Normal table := normal_of_reduceWith hinner
  cases value with
  | none => cases side <;> exact hpatch h
  | some value =>
    cases value with
    | tree t =>
      cases patch with
      | tree p =>
        obtain ⟨r, hr, rfl⟩ := Option.map_eq_some_iff.1 h
        intro u hu
        obtain rfl := Value.tree.inj hu
        exact hinner _ r hr
      | _ => cases side <;> first | exact hkept rfl h | exact hpatch h
    | _ => cases side <;> first | exact hkept rfl h | exact hpatch h

/-- Merging all operands with a value in normal form gives a value in normal form. -/
theorem normal_of_mergeOperands {value w : Option Value} {a : Application}
    (hvalue : ∀ v ∈ value, v.Normal table) (h : table.mergeOperands inner value a = some w) :
    ∀ v ∈ w, v.Normal table := by
  unfold mergeOperands at h
  split at h
  · refine foldlM_keeps (P := fun value => ∀ v ∈ value, v.Normal table) ?_ hvalue h
    intro value patch value' hvalue hstep v hv
    obtain ⟨w, hw, rfl⟩ := Option.map_eq_some_iff.1 hstep
    obtain rfl := Option.some.inj hv
    exact normal_of_mergePatch hinner hvalue hw
  · obtain rfl := Option.some.inj h
    exact hvalue

/-- A value that is settled at last is in normal form, if it is whenever it was settled before. -/
theorem normal_of_settle {p : Progress} {w : Option Value}
    (hp : p.settled = true → ∀ v ∈ p.value, v.Normal table) (h : p.settle inner = some w) :
    ∀ v ∈ w, v.Normal table := by
  unfold Progress.settle at h
  split at h
  · next hsettled =>
    obtain rfl := Option.some.inj h
    exact hp hsettled
  · exact normal_of_reducePresent hinner h

/-- Applying an operator leaves no settled value that is not in normal form. -/
theorem normal_of_advance {p q : Progress} {a : Application}
    (hp : p.settled = true → ∀ v ∈ p.value, v.Normal table)
    (h : table.advance inner p a = some q) :
    q.settled = true → ∀ v ∈ q.value, v.Normal table := by
  intro hsettled
  unfold advance at h
  split at h
  · obtain ⟨value, hvalue, h⟩ := Option.bind_eq_some_iff.1 h
    obtain ⟨value', hvalue', h⟩ := Option.bind_eq_some_iff.1 h
    obtain rfl := Option.some.inj h
    exact normal_of_mergeOperands hinner (normal_of_settle hinner hp hvalue) hvalue'
  · obtain rfl := Option.some.inj h
    simp at hsettled

/-- The value at a base key is in normal form. -/
theorem normal_of_applyAll {as : List Application} {value : Option Value}
    {residue : List Application} (h : table.applyAll inner as = some (value, residue)) :
    ∀ v ∈ value, v.Normal table := by
  obtain ⟨start, hstart, h⟩ := Option.bind_eq_some_iff.1 h
  obtain ⟨merged, hmerged, h⟩ := Option.bind_eq_some_iff.1 h
  obtain ⟨p, hp, h⟩ := Option.bind_eq_some_iff.1 h
  obtain ⟨value', hvalue, h⟩ := Option.bind_eq_some_iff.1 h
  obtain ⟨rfl, -⟩ := Prod.mk.inj (Option.some.inj h)
  have hmerged' : ∀ v ∈ merged, v.Normal table :=
    foldlM_keeps (P := fun value => ∀ v ∈ value, v.Normal table)
      (fun _ _ _ => normal_of_mergeOperands hinner) (normal_of_reducePresent hinner hstart) hmerged
  have hp' : p.settled = true → ∀ v ∈ p.value, v.Normal table :=
    foldlM_keeps (P := fun p : Progress => p.settled = true → ∀ v ∈ p.value, v.Normal table)
      (fun _ _ _ => normal_of_advance hinner) (fun _ => hmerged') hp
  exact normal_of_settle hinner hp' hvalue

/-- The trees that the entries of a base key assign are in normal form. -/
theorem normal_of_reduceBase {base : String} {as : List Application} {entries : Tree}
    (hfits : ∀ a ∈ as, a.operator.FitsBefore table base.toList)
    (h : table.reduceBase inner base as = some entries) :
    ∀ e ∈ entries, (Key.parse table e.1).operator = .assign → e.2.Normal table := by
  obtain ⟨⟨value, residue⟩, hall, h⟩ := Option.bind_eq_some_iff.1 h
  obtain rfl := Option.some.inj h
  intro e he hassign
  rcases List.mem_append.1 he with he | he
  · obtain ⟨v, hv, rfl⟩ := List.mem_map.1 he
    exact normal_of_applyAll hinner hall v (Option.mem_toList.1 hv)
  · obtain ⟨a, ha, he⟩ := List.mem_filterMap.1 he
    obtain ⟨hfits', hassign', hmerge⟩ := fits_of_mem_residue hfits hall ha
    have hidentity := (reduced_residue hfits' hassign' hmerge he).1
    have hoperator : a.operator = .assign := (congrArg Identity.operator hidentity).symm.trans hassign
    simp [hoperator, Operator.isAssign] at hassign'

end Values

section Level

/-- Base keys that differ have entries for different identities. -/
theorem writtenFor_append {bases bases' : List String} {entries entries' : Tree}
    (h : WrittenFor table bases entries) (h' : WrittenFor table bases' entries')
    (hdisjoint : List.Disjoint bases bases') :
    WrittenFor table (bases ++ bases') (entries ++ entries') where
  distinct := by
    rw [identities_append]
    refine List.nodup_append.2 ⟨h.distinct, h'.distinct, fun i hi j hj hij => ?_⟩
    exact hdisjoint (h.base_mem i hi) (hij ▸ h'.base_mem j hj)
  base_mem i hi := by
    rw [identities_append] at hi
    rcases List.mem_append.1 hi with hi | hi
    · exact List.mem_append_left _ (h.base_mem i hi)
    · exact List.mem_append_right _ (h'.base_mem i hi)
  reduced e he := (List.mem_append.1 he).elim (h.reduced e) (h'.reduced e)

/-- The entries of distinct base keys are for distinct identities. -/
theorem writtenFor_flatten {bases : List String} {f : String → Option Tree}
    (hnodup : bases.Nodup)
    (hf : ∀ base ∈ bases, ∀ entries, f base = some entries → WrittenFor table [base] entries)
    {reduced : List Tree} (h : bases.mapM f = some reduced) :
    WrittenFor table bases reduced.flatten := by
  induction bases generalizing reduced with
  | nil =>
    obtain rfl := Option.some.inj h
    exact ⟨List.nodup_nil, fun _ hi => absurd hi List.not_mem_nil,
      fun _ he => absurd he List.not_mem_nil⟩
  | cons base rest ih =>
    rw [List.mapM_cons] at h
    obtain ⟨entries, hentries, h⟩ := Option.bind_eq_some_iff.1 h
    obtain ⟨others, hothers, h⟩ := Option.bind_eq_some_iff.1 h
    obtain rfl := Option.some.inj h
    obtain ⟨hnew, hrest⟩ := List.nodup_cons.1 hnodup
    have hfirst := hf base List.mem_cons_self entries hentries
    have hlater := ih hrest (fun b hb => hf b (List.mem_cons_of_mem _ hb)) hothers
    exact writtenFor_append hfirst hlater (List.singleton_disjoint.2 hnew)

variable {t : Tree}

/-- The operators of a base key, numbered in order, fit before it. -/
theorem fits_of_mem_numbered {base : String} {a : Application}
    (ha : a ∈ numbered (contentsAt (table.declared t) base)) :
    a.operator.FitsBefore table base.toList :=
  fitsBefore_of_mem_contentsAt table (content_mem_of_mem_numbered ha)

/-- What a base key is reduced to is written for distinct identities there. -/
theorem writtenFor_numbered {base : String} {entries : Tree}
    (h : table.reduceBase inner base (numbered (contentsAt (table.declared t) base)) =
      some entries) : WrittenFor table [base] entries := by
  refine writtenFor_reduceBase (fun a => fits_of_mem_numbered) ?_ h
  rw [map_operator_numbered]
  exact nodup_contentsAt table t base

/-- A level has its entries for distinct identities at its base keys. -/
theorem writtenFor_levelEntries {entries : Tree} (h : table.levelEntries inner t = some entries) :
    WrittenFor table (basesOf (table.declared t)) entries := by
  rw [levelEntries_eq] at h
  obtain ⟨reduced, hreduced, rfl⟩ := Option.map_eq_some_iff.1 h
  exact writtenFor_flatten (nodup_basesOf table t) (fun _ _ _ => writtenFor_numbered) hreduced

/-- Distinct identities have distinct keys. -/
theorem nodup_keys (h : (table.identities t).Nodup) : (t.map Prod.fst).Nodup := by
  refine List.Nodup.of_map table.identityOf ?_
  rw [List.map_map]
  exact h

/-- The entries of a level are in normal form. -/
theorem normal_levelEntries (hinner : inner.Normalizes table) {entries : Tree}
    (h : table.levelEntries inner t = some entries) : Tree.Normal table entries := by
  have hwritten := writtenFor_levelEntries h
  refine .intro hwritten.distinct hwritten.reduced fun e he hassign => ?_
  rw [levelEntries_eq] at h
  obtain ⟨reduced, hreduced, rfl⟩ := Option.map_eq_some_iff.1 h
  obtain ⟨written, hmem, he⟩ := List.mem_flatten.1 he
  obtain ⟨base, -, hbase⟩ := exists_of_mem_mapM hreduced hmem
  exact normal_of_reduceBase hinner (fun a => fits_of_mem_numbered) hbase e he hassign

/-- Merging with the whole tree keeps it in normal form. -/
theorem normal_of_mergeRootOperands (hinner : inner.Normalizes table) {t r : Tree}
    {a : Application} (ht : Tree.Normal table t)
    (h : table.mergeRootOperands inner t a = some r) : Tree.Normal table r := by
  unfold mergeRootOperands at h
  split at h
  · refine foldlM_keeps (fun t patch r ht hstep => ?_) ht h
    unfold mergeRootPatch at hstep
    split at hstep
    · exact hinner _ r hstep
    · obtain rfl := Option.some.inj hstep
      exact ht
  · obtain rfl := Option.some.inj h
    exact ht

/-- A level is reduced to its entries, none of which is written over another, and merged with the
whole tree from there on. -/
theorem reduceLevel_eq_entries (t : Tree) :
    table.reduceLevel inner t = (table.levelEntries inner t).bind fun entries =>
      (outwards (numbered (rootContents (table.declared t)))).foldlM
        (table.mergeRootOperands inner) entries := by
  rw [reduceLevel_eq_bind]
  apply Option.bind_congr
  intro entries hentries
  rw [Tree.ofEntries_of_nodup (nodup_keys (writtenFor_levelEntries hentries).distinct)]

/-- A level with one base key is reduced to the entries of it. -/
theorem reduceLevel_of_singleton {base : String} (hbases : basesOf (table.declared t) = [base])
    (hroot : rootContents (table.declared t) = []) :
    table.reduceLevel inner t =
      table.reduceBase inner base (numbered (contentsAt (table.declared t) base)) := by
  rw [reduceLevel_eq_entries, levelEntries_eq, hbases, hroot, List.mapM_cons, List.mapM_nil]
  cases table.reduceBase inner base (numbered (contentsAt (table.declared t) base)) with
  | none => rfl
  | some entries => exact congrArg some (List.append_nil entries)

/-- A level is reduced to normal form. -/
theorem normal_of_reduceLevel (hinner : inner.Normalizes table) {r : Tree}
    (h : table.reduceLevel inner t = some r) : Tree.Normal table r := by
  rw [reduceLevel_eq_entries] at h
  obtain ⟨entries, hentries, h⟩ := Option.bind_eq_some_iff.1 h
  exact foldlM_keeps (fun _ _ _ => normal_of_mergeRootOperands hinner)
    (normal_levelEntries hinner hentries) h

end Level

/-- Within every depth reduction gives normal forms. -/
theorem normalizes_reduceWithin (table : OperatorTable) (depth : Nat) :
    Reduction.Normalizes (table.reduceWithin depth) table := by
  induction depth with
  | zero => exact fun t r h => absurd h (by simp [reduceWithin])
  | succ depth ih => exact fun t r h => normal_of_reduceLevel ih h

/-- Reduced trees are in normal form, and nothing is overwritten while they are written: whatever
inner trees are reduced to, the entries of a level have distinct keys and are all in the tree that
is written from them. -/
theorem reduced_trees_normal (table : OperatorTable) (t : Tree) :
    (∀ inner entries, table.levelEntries inner t = some entries →
        (entries.map Prod.fst).Nodup ∧ Tree.ofEntries entries = entries) ∧
      ∀ r, table.Reduces t r → Tree.Normal table r := by
  refine ⟨fun inner entries h => ?_, fun r ⟨depth, h⟩ => normalizes_reduceWithin table depth t r h⟩
  have hnodup := nodup_keys (writtenFor_levelEntries h).distinct
  exact ⟨hnodup, Tree.ofEntries_of_nodup hnodup⟩

/-- Operands left by several operators stand beside a value that was merged at two levels. -/
theorem reduced_tree_normal_with_residue :
    let table : OperatorTable := ⟨[("keep", ⟨2000, fun value operands => (value, operands)⟩)], by decide⟩
    let t : Tree := [("*>", .tree [("a", .tree [("*>", .number (.int 1)), ("()+n", .null)])]),
      ("#(keep)a", .array [.bool true, .null]), ("a", .tree [("#+n", .array [.number (.int 2)])]),
      ("+b", .number (.int 1)), ("#+b", .array [.number (.int 3)])]
    let r : Tree := [("a", .tree [("+n", .number (.int 2)), ("()+n", .null)]),
      ("(#keep)a", .array [.bool true, .null]), ("+b", .number (.int 4))]
    table.Reduces t r ∧ Tree.Normal table r ∧
      ∃ entries, table.levelEntries (table.reduceWithin 3) t = some entries ∧
        (entries.map Prod.fst).Nodup := by
  intro table t r
  have hreduces : table.Reduces t r := ⟨4, by decide +kernel⟩
  have hlevel : (table.levelEntries (table.reduceWithin 3) t).isSome = true := by decide +kernel
  obtain ⟨entries, hentries⟩ := Option.isSome_iff_exists.1 hlevel
  obtain ⟨hwritten, hnormal⟩ := reduced_trees_normal table t
  exact ⟨hreduces, hnormal r hreduces, entries, hentries, (hwritten _ entries hentries).1⟩

end OperatorTable

end Overlay
