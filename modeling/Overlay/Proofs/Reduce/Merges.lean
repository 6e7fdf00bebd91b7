import Overlay.Proofs.Reduce.Arrangement

/-!
# Base keys with merges alone

Where nothing but merges is applied at a base key, these are made one after the other from the
value outwards, below before above. No value stays unsettled on the way and no operands are left,
so a base key of this kind is reduced to its value and nothing beside it.
-/

namespace Overlay

/-- Where the elements of a kind come before all others, picking out both kinds changes nothing. -/
theorem filter_append_filter_not {α : Type} {p : α → Bool} {l : List α}
    (h : l.Pairwise fun a b => p b = true → p a = true) :
    l.filter p ++ l.filter (fun a => !p a) = l := by
  induction l with
  | nil => rfl
  | cons a rest ih =>
    obtain ⟨ha, hrest⟩ := List.pairwise_cons.1 h
    by_cases hp : p a = true
    · simpa [hp] using ih hrest
    · have hnone : rest.filter p = [] := List.filter_eq_nil_iff.2 fun b hb hpb => hp (ha b hb hpb)
      have hall : rest.filter (fun b => !p b) = rest :=
        List.filter_eq_self.2 fun b hb => by simpa using fun hpb => hp (ha b hb hpb)
      simp [hp, hnone, hall]

namespace OperatorTable

variable {table : OperatorTable} {inner : Reduction}

/-- A settled value stays settled through merges, and these leave nothing. -/
theorem foldlM_advance_of_merges {as : List Application}
    (h : ∀ a ∈ as, a.operator.isMerge = true) (value : Option Value) (residue : List Application) :
    as.foldlM (table.advance inner) ⟨value, true, residue⟩ =
      (as.foldlM (table.mergeOperands inner) value).map fun value => ⟨value, true, residue⟩ := by
  refine foldlM_hom (fun value => Progress.mk value true residue) (fun a ha value => ?_) value
  rw [advance, if_pos (h a ha)]
  change (table.mergeOperands inner value a).bind _ = _
  cases table.mergeOperands inner value a <;> rfl

/-- Merges below come before merges above in the order of ranks. -/
theorem isMergeBelow_of_outwardRank_le {o o' : Operator} (ho : o.isMerge = true)
    (h : o.outwardRank ≤ o'.outwardRank) (ho' : o'.isMergeBelow = true) :
    o.isMergeBelow = true := by
  cases o with
  | merge side level =>
    cases o' with
    | merge side' level' =>
      have hlt : level'.toNat < UInt32.size := level'.toNat_lt
      cases side <;> cases side' <;>
        simp only [Operator.outwardRank, Operator.isMergeBelow, Bool.false_eq_true] at h ho' ⊢
      omega
    | _ => simp [Operator.isMergeBelow] at ho'
  | _ => simp [Operator.isMerge] at ho

/-- Merges above the value are applied in the order of their ranks. -/
theorem appliesBefore_of_outwardRank_le {o o' : Operator} (ho : o.isMerge = true)
    (ho' : o'.isMerge = true) (happlied : o.isApplied = true) (happlied' : o'.isApplied = true)
    (h : o.outwardRank ≤ o'.outwardRank) : table.AppliesBefore o o' := by
  cases o with
  | merge side level =>
    cases o' with
    | merge side' level' =>
      cases side <;> cases side' <;>
        simp [Operator.isApplied, Operator.isMergeBelow, Operator.isAssign] at happlied happlied'
      simp only [Operator.outwardRank] at h
      simp only [AppliesBefore, priority, levelStep, Operator.centralRank]
      omega
    | _ => simp [Operator.isMerge] at ho'
  | _ => simp [Operator.isMerge] at ho

/-- Merges above the value are told apart by their levels. -/
theorem tellsApart_of_merges {operators : List Operator} (h : ∀ o ∈ operators, o.isMerge = true)
    (happlied : ∀ o ∈ operators, o.isApplied = true) : table.TellsApart operators := by
  intro o ho o' ho' hpriority
  have hmerge := h o ho
  have hmerge' := h o' ho'
  have hkind := happlied o ho
  have hkind' := happlied o' ho'
  cases o with
  | merge side level =>
    cases o' with
    | merge side' level' =>
      cases side <;> cases side' <;>
        simp [Operator.isApplied, Operator.isMergeBelow, Operator.isAssign] at hkind hkind'
      have hlevel : level.toNat = level'.toNat := by
        simp only [priority, levelStep] at hpriority
        omega
      exact Or.inl (by rw [UInt32.toNat_inj.1 hlevel])
    | _ => simp [Operator.isMerge] at hmerge'
  | _ => simp [Operator.isMerge] at hmerge

/-- Of plain operators and merges, the merges above are those applied after the merges below. -/
theorem isApplied_of_kind {o : Operator} (h : o.isAssign = true ∨ o.isMerge = true) :
    o.isApplied = (!o.isMergeBelow && o.isMerge) := by
  cases o with
  | assign | merge _ _ => simp [Operator.isApplied, Operator.isAssign, Operator.isMerge]
  | _ => simp [Operator.isAssign, Operator.isMerge] at h

/-- Merges below are merges. -/
theorem isMergeBelow_eq_and (o : Operator) : o.isMergeBelow = (o.isMergeBelow && o.isMerge) := by
  cases o <;> simp [Operator.isMergeBelow, Operator.isMerge]

section Kinds

variable {contents merges : Contents} (hkinds : ∀ c ∈ contents, c.1.isAssign = true ∨ c.1.isMerge = true)
  (hmerges : (contents.filter fun c => c.1.isMerge).Perm merges)

include hmerges

/-- Operators of a kind that only merges have are picked out from the merges. -/
theorem perm_filter_of_merges {p q : Operator → Bool}
    (h : ∀ c ∈ contents, p c.1 = (q c.1 && c.1.isMerge)) :
    (contents.filter fun c => p c.1).Perm (merges.filter fun c => q c.1) := by
  refine List.Perm.trans (List.Perm.of_eq ?_) (hmerges.filter fun c => q c.1)
  rw [List.filter_filter]
  exact List.filter_congr h

/-- The elements of an arrangement of merges are merges. -/
theorem isMerge_of_mem_merges {c : Operator × Operands} (hc : c ∈ merges) : c.1.isMerge = true :=
  (List.mem_filter.1 (hmerges.mem_iff.2 hc)).2

include hkinds

/-- What is applied after the merges below are the merges above. -/
theorem perm_isApplied : (contents.filter fun c => c.1.isApplied).Perm
    (merges.filter fun c => !c.1.isMergeBelow) :=
  perm_filter_of_merges hmerges (p := Operator.isApplied) (q := fun o => !o.isMergeBelow)
    fun c hc => isApplied_of_kind (hkinds c hc)

/-- The merges above are applied after the merges below. -/
theorem isApplied_of_mem_above {c : Operator × Operands}
    (hc : c ∈ merges.filter fun c => !c.1.isMergeBelow) : c.1.isApplied = true :=
  (List.mem_filter.1 ((perm_isApplied hkinds hmerges).mem_iff.2 hc)).2

end Kinds

/-- Where only merges are declared beside the plain value, a base key is reduced to its value, from
which they are made in the order of their ranks. -/
theorem reduceBase_of_merges {t : Tree} {base : String} {merges : Contents}
    (hkinds : ∀ c ∈ contentsAt (table.declared t) base, c.1.isAssign = true ∨ c.1.isMerge = true)
    (hmerges : ((contentsAt (table.declared t) base).filter fun c => c.1.isMerge).Perm merges)
    (hordered : merges.Pairwise fun c d => c.1.outwardRank ≤ d.1.outwardRank) :
    table.reduceBase inner base (numbered (contentsAt (table.declared t) base)) =
      (reducePresent inner (table.operandsAt ⟨.assign, base⟩ t).getLast?).bind fun start =>
        (merges.foldlM (fun value c => table.mergeOperands inner value (.ofContent c)) start).map
          fun value => value.toList.map fun value => ((Key.plain base).encode table, value) := by
  have hmerge {c : Operator × Operands} (hc : c ∈ merges) := isMerge_of_mem_merges hmerges hc
  let below := merges.filter fun c => c.1.isMergeBelow
  let above := merges.filter fun c => !c.1.isMergeBelow
  have hsplit : below ++ above = merges := by
    refine filter_append_filter_not (hordered.imp_of_mem fun hc _ hcd hd => ?_)
    exact isMergeBelow_of_outwardRank_le (hmerge hc) hcd hd
  have happlied {c : Operator × Operands} (hc : c ∈ above) :
      c.1.isMerge = true ∧ c.1.isApplied = true :=
    ⟨hmerge (List.mem_filter.1 hc).1, isApplied_of_mem_above hkinds hmerges hc⟩
  have hbelow : ((contentsAt (table.declared t) base).filter fun c => c.1.isMergeBelow).Perm
      below :=
    perm_filter_of_merges hmerges fun c _ => isMergeBelow_eq_and c.1
  have hothers : ((contentsAt (table.declared t) base).filter fun c => c.1.isApplied).Perm
      above := perm_isApplied hkinds hmerges
  have hapart : table.TellsApart (above.map Prod.fst) := by
    refine tellsApart_of_merges (fun o ho => ?_) fun o ho => ?_
    · obtain ⟨c, hc, rfl⟩ := List.mem_map.1 ho
      exact (happlied hc).1
    · obtain ⟨c, hc, rfl⟩ := List.mem_map.1 ho
      exact (happlied hc).2
  have happlies : above.Pairwise fun c d => table.AppliesBefore c.1 d.1 := by
    refine (hordered.filter _).imp_of_mem fun hc hd hcd => ?_
    exact appliesBefore_of_outwardRank_le (happlied hc).1 (happlied hd).1 (happlied hc).2
      (happlied hd).2 hcd
  have hadvance : ∀ a ∈ above.map Application.ofContent, a.operator.isMerge = true := by
    intro a ha
    obtain ⟨c, hc, rfl⟩ := List.mem_map.1 ha
    exact (happlied hc).1
  rw [reduceBase_declared inner hbelow hothers (hordered.filter _) hapart happlies, reduceArranged]
  apply Option.bind_congr
  intro start _
  rw [← hsplit, List.foldlM_append, List.foldlM_map]
  simp only [Option.bind_eq_bind, Option.map_bind]
  apply Option.bind_congr
  intro value _
  rw [foldlM_advance_of_merges hadvance, List.foldlM_map, Option.bind_map]
  change (above.foldlM (fun value c => table.mergeOperands inner value (.ofContent c)) value).bind
    _ = Option.map _ _
  rw [Option.map_eq_bind]
  apply Option.bind_congr
  intro value _
  simp [Progress.settle]

end OperatorTable

end Overlay
