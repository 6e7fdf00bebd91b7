import Overlay.Proofs.Reduce.Declared

/-!
# Orders that operators decide alone

The operators at a base key are put in order by places, and positions are a part of places. Where
priorities tell operators apart, positions decide nothing: the order is that of the operators
themselves, whichever of them was declared first. In the same way merges are ordered by their
levels. A base key is reduced from what is assigned there and from operators that are arranged in
this way, and from nothing else.
-/

namespace Overlay

section Ordering

variable (le : Operator → Operator → Prop) {place : Application → Place} {as : List Application}
  {cs : Contents}

/-- Places that follow an order of operators put operators in this order. -/
theorem pairwise_orderByPlace (hplace : ∀ a ∈ as, ∀ b ∈ as,
      (place a).notAfter (place b) = true → le a.operator b.operator) :
    ((orderByPlace place as).map Application.content).Pairwise fun c d => le c.1 d.1 := by
  rw [List.pairwise_map]
  refine (orderByPlace_ordered place as).imp_of_mem fun ha hb hab => ?_
  have hmem {a : Application} : a ∈ orderByPlace place as ↔ a ∈ as :=
    (orderByPlace_perm place as).mem_iff
  exact hplace _ (hmem.1 ha) _ (hmem.1 hb) hab

/-- There is one way to put distinct operators in an order, so positions cannot change it. -/
theorem map_content_orderByPlace (hplace : ∀ a ∈ as, ∀ b ∈ as,
      (place a).notAfter (place b) = true → le a.operator b.operator)
    (hanti : ∀ c ∈ cs, ∀ d ∈ cs, le c.1 d.1 → le d.1 c.1 → c.1 = d.1)
    (hnodup : (cs.map Prod.fst).Nodup) (hperm : (as.map Application.content).Perm cs)
    (hordered : cs.Pairwise fun c d => le c.1 d.1) :
    (orderByPlace place as).map Application.content = cs := by
  have hsame : ((orderByPlace place as).map Application.content).Perm cs :=
    ((orderByPlace_perm place as).map _).trans hperm
  refine List.Perm.eq_of_pairwise (fun c d hc hd hcd hdc => ?_) (pairwise_orderByPlace le hplace)
    hordered hsame
  have hc' : c ∈ cs := hsame.mem_iff.1 hc
  exact List.inj_on_of_nodup_map hnodup hc' hd (hanti c hc' d hd hcd hdc)

end Ordering

/-- The rank of a merge from the value outwards: those below come first, each side by level. -/
def Operator.outwardRank : Operator → Nat
  | merge .below level => level.toNat
  | merge .above level => UInt32.size + level.toNat
  | _ => 0

/-- The operators that are applied at a base key after the merges below the value. -/
def Operator.isApplied (o : Operator) : Bool := !o.isAssign && !o.isMergeBelow

namespace Operator

/-- A merge below the value is a merge. -/
@[grind →] theorem isMerge_of_isMergeBelow {o : Operator} (h : o.isMergeBelow = true) :
    o.isMerge = true := by
  cases o with
  | merge side level => rfl
  | _ => simp [isMergeBelow] at h

/-- Merges are told apart by their ranks. -/
theorem eq_of_outwardRank_eq {o o' : Operator} (ho : o.isMerge = true) (ho' : o'.isMerge = true)
    (h : o.outwardRank = o'.outwardRank) : o = o' := by
  cases o with
  | merge side level =>
    cases o' with
    | merge side' level' =>
      have hlt : level.toNat < UInt32.size := level.toNat_lt
      have hlt' : level'.toNat < UInt32.size := level'.toNat_lt
      cases side <;> cases side' <;> simp only [outwardRank] at h
      · rw [UInt32.toNat_inj.1 h]
      · omega
      · omega
      · rw [UInt32.toNat_inj.1 (Nat.add_left_cancel h)]
    | _ => simp [isMerge] at ho'
  | _ => simp [isMerge] at ho

end Operator

/-- Distances follow the ranks of merges. -/
theorem outwardRank_le_of_distance {a b : Application} (ha : a.operator.isMerge = true)
    (hb : b.operator.isMerge = true) (h : a.distance.notAfter b.distance = true) :
    a.operator.outwardRank ≤ b.operator.outwardRank := by
  obtain ⟨o, operands, position⟩ := a
  obtain ⟨o', operands', position'⟩ := b
  rw [Place.notAfter_iff] at h
  cases o with
  | merge side level =>
    cases o' with
    | merge side' level' =>
      have hlt : level.toNat < UInt32.size := level.toNat_lt
      cases side <;> cases side' <;>
        simp only [Application.distance, Operator.outwardRank] at h ⊢ <;> omega
    | _ => simp [Operator.isMerge] at hb
  | _ => simp [Operator.isMerge] at ha

section Outwards

variable {as : List Application} {cs : Contents}

/-- Merges are arranged by their ranks. -/
theorem pairwise_outwards (hmerge : ∀ a ∈ as, a.operator.isMerge = true) :
    ((outwards as).map Application.content).Pairwise
      fun c d => c.1.outwardRank ≤ d.1.outwardRank :=
  pairwise_orderByPlace (fun o o' => o.outwardRank ≤ o'.outwardRank) fun a ha b hb =>
    outwardRank_le_of_distance (hmerge a ha) (hmerge b hb)

/-- The arrangement of merges by their ranks is the only one. -/
theorem map_content_outwards (hmerge : ∀ c ∈ cs, c.1.isMerge = true)
    (hnodup : (cs.map Prod.fst).Nodup) (hperm : (as.map Application.content).Perm cs)
    (hordered : cs.Pairwise fun c d => c.1.outwardRank ≤ d.1.outwardRank) :
    (outwards as).map Application.content = cs := by
  have hmerge' : ∀ a ∈ as, a.operator.isMerge = true := fun a ha =>
    hmerge a.content (hperm.mem_iff.1 (List.mem_map_of_mem ha))
  exact map_content_orderByPlace (fun o o' => o.outwardRank ≤ o'.outwardRank)
    (fun a ha b hb => outwardRank_le_of_distance (hmerge' a ha) (hmerge' b hb))
    (fun c hc d hd hcd hdc => Operator.eq_of_outwardRank_eq (hmerge c hc) (hmerge d hd)
      (Nat.le_antisymm hcd hdc))
    hnodup hperm hordered

/-- Merges from the value outwards, without their positions. -/
def outwardContents (contents : Contents) : Contents :=
  (outwards (numbered contents)).map Application.content

/-- Arranging merges loses and adds nothing. -/
theorem perm_outwardContents (contents : Contents) : (outwardContents contents).Perm contents := by
  conv_rhs => rw [← map_content_numbered contents]
  exact (orderByPlace_perm _ _).map _

/-- Merges are arranged by their ranks. -/
theorem pairwise_outwardContents (hmerge : ∀ c ∈ cs, c.1.isMerge = true) :
    (outwardContents cs).Pairwise fun c d => c.1.outwardRank ≤ d.1.outwardRank :=
  pairwise_outwards fun _ ha => hmerge _ (content_mem_of_mem_numbered ha)

/-- Distinct merges are arranged alike in whatever order they come. -/
theorem outwardContents_eq_of_perm {cs' : Contents} (hmerge : ∀ c ∈ cs, c.1.isMerge = true)
    (hnodup : (cs.map Prod.fst).Nodup) (hperm : cs'.Perm cs) :
    outwardContents cs' = outwardContents cs := by
  have harranged := perm_outwardContents cs
  refine map_content_outwards (fun c hc => hmerge c (harranged.mem_iff.1 hc))
    ((harranged.map Prod.fst).nodup_iff.2 hnodup) ?_ (pairwise_outwardContents hmerge)
  rw [map_content_numbered]
  exact hperm.trans harranged.symm

end Outwards

namespace OperatorTable

variable (table : OperatorTable)

/-- An operator is applied no later than another by its priority, and by its rank where the
priorities are the same. -/
def AppliesBefore (o o' : Operator) : Prop :=
  table.priority o < table.priority o' ∨
    table.priority o = table.priority o' ∧ o.centralRank ≤ o'.centralRank

/-- Operators are told apart by their priorities, the central ones being taken for one. -/
def TellsApart (operators : List Operator) : Prop :=
  ∀ o ∈ operators, ∀ o' ∈ operators, table.priority o = table.priority o' →
    o = o' ∨ o.isCentral = true ∧ o'.isCentral = true

variable {table}

/-- Central operators are told apart by their ranks. -/
theorem eq_of_centralRank_eq {o o' : Operator} (ho : o.isCentral = true)
    (ho' : o'.isCentral = true) (h : o.centralRank = o'.centralRank) : o = o' := by
  cases o <;> cases o' <;> simp_all [Operator.isCentral, Operator.centralRank]

/-- Fewer operators are told apart too. -/
theorem TellsApart.mono {operators operators' : List Operator} (h : table.TellsApart operators)
    (hsub : ∀ o ∈ operators', o ∈ operators) : table.TellsApart operators' :=
  fun o ho o' ho' => h o (hsub o ho) o' (hsub o' ho')

/-- Operators that are told apart are applied in one order only. -/
theorem TellsApart.antisymm {operators : List Operator} (h : table.TellsApart operators)
    {o o' : Operator} (ho : o ∈ operators) (ho' : o' ∈ operators)
    (hle : table.AppliesBefore o o') (hge : table.AppliesBefore o' o) : o = o' := by
  simp only [AppliesBefore] at hle hge
  rcases h o ho o' ho' (by omega) with heq | ⟨hcentral, hcentral'⟩
  · exact heq
  · exact eq_of_centralRank_eq hcentral hcentral' (by omega)

section InOrder

variable {as : List Application} {cs : Contents}

/-- Where operators are told apart, places follow their order. -/
theorem appliesBefore_of_place (h : table.TellsApart (as.map Application.operator))
    {a b : Application} (ha : a ∈ as) (hb : b ∈ as)
    (hplace : (table.place as a).notAfter (table.place as b) = true) :
    table.AppliesBefore a.operator b.operator := by
  rw [Place.notAfter_iff] at hplace
  simp only [place] at hplace
  by_cases hpriority : table.priority a.operator = table.priority b.operator
  · have hab := h a.operator (List.mem_map_of_mem ha) b.operator (List.mem_map_of_mem hb) hpriority
    rcases hab with heq | ⟨hcentral, hcentral'⟩
    · exact Or.inr ⟨hpriority, Nat.le_of_eq (congrArg Operator.centralRank heq)⟩
    · -- Central operators have the same anchor, so their ranks decide.
      rw [if_pos hcentral, if_pos hcentral'] at hplace
      exact Or.inr ⟨hpriority, by omega⟩
  · exact Or.inl (by omega)

/-- Operators are arranged by priority and rank. -/
theorem pairwise_inOrder (h : table.TellsApart (as.map Application.operator)) :
    ((table.inOrder as).map Application.content).Pairwise fun c d => table.AppliesBefore c.1 d.1 :=
  pairwise_orderByPlace table.AppliesBefore fun _ ha _ hb => appliesBefore_of_place h ha hb

/-- The arrangement of operators by priority and rank is the only one. -/
theorem map_content_inOrder (h : table.TellsApart (as.map Application.operator))
    (hnodup : (cs.map Prod.fst).Nodup) (hperm : (as.map Application.content).Perm cs)
    (hordered : cs.Pairwise fun c d => table.AppliesBefore c.1 d.1) :
    (table.inOrder as).map Application.content = cs := by
  have hmem {c : Operator × Operands} (hc : c ∈ cs) : c.1 ∈ as.map Application.operator := by
    obtain ⟨a, ha, rfl⟩ := List.mem_map.1 (hperm.mem_iff.2 hc)
    exact List.mem_map_of_mem ha
  exact map_content_orderByPlace table.AppliesBefore (fun _ ha _ hb => appliesBefore_of_place h ha hb)
    (fun c hc d hd => h.antisymm (hmem hc) (hmem hd)) hnodup hperm hordered

end InOrder

end OperatorTable

/-- An operator with its operands, at no particular position. -/
def Application.ofContent (c : Operator × Operands) : Application := ⟨c.1, c.2, 0⟩

/-- Forgetting positions leaves the contents. -/
theorem map_renumber_zero (as : List Application) :
    as.map (Application.renumber fun _ => 0) =
      (as.map Application.content).map Application.ofContent := by
  rw [List.map_map]
  rfl

namespace OperatorTable

variable (table : OperatorTable) (inner : Reduction)

/-- Reduce a base key from the value that is assigned there, the merges below it and all other
operators, these in the order in which they are applied. -/
def reduceArranged (base : String) (assigned : Option Value) (below others : Contents) :
    Option (List (String × Value)) := do
  let start ← reducePresent inner assigned
  let value ← (below.map Application.ofContent).foldlM (table.mergeOperands inner) start
  let p ← (others.map Application.ofContent).foldlM (table.advance inner) ⟨value, true, []⟩
  let value ← p.settle inner
  some ((value.toList.map fun value => ((Key.plain base).encode table, value)) ++
    p.residue.filterMap (table.residueEntry? base))

/-- A base key is reduced from the arrangement of its operators. -/
theorem reduceBase_eq_reduceArranged (base : String) (as : List Application) :
    table.reduceBase inner base as =
      table.reduceArranged inner base (table.assignedValue as)
        ((outwards (as.filter fun a => a.operator.isMergeBelow)).map Application.content)
        ((table.inOrder (as.filter fun a => !a.operator.isAssign && !a.operator.isMergeBelow)).map
          Application.content) := by
  rw [reduceBase, applyAll, reduceArranged]
  simp only [Option.bind_eq_bind, Option.bind_assoc]
  apply Option.bind_congr
  intro start _
  rw [List.map_map, List.foldlM_map]
  apply Option.bind_congr
  intro value _
  -- Positions are passed along to the residue and are read no more.
  have hrun := foldlM_map_hom (Progress.renumber fun _ => 0) (Application.renumber fun _ => 0)
    (table.advance_renumber inner)
    (table.inOrder (as.filter fun a => !a.operator.isAssign && !a.operator.isMergeBelow))
    ⟨value, true, []⟩
  rw [map_renumber_zero] at hrun
  refine Eq.trans ?_ (congrArg (Option.bind · _) hrun.symm)
  rw [Option.bind_map]
  apply Option.bind_congr
  intro p _
  rw [Function.comp_apply]
  change (p.settle inner).bind _ = (p.settle inner).bind _
  apply Option.bind_congr
  intro value _
  rw [Option.bind_some]
  simp only [Progress.renumber, List.filterMap_map]
  rfl

section Declared

variable {table} {t : Tree} {base : String}

/-- What is assigned at a base key is the last plain operand there. -/
theorem assignedValue_declared (t : Tree) (base : String) :
    table.assignedValue (numbered (contentsAt (table.declared t) base)) =
      (table.operandsAt ⟨.assign, base⟩ t).getLast? := by
  have hvalue (as : List Application) : table.assignedValue as =
      ((as.map Application.content).find? fun c => c.1.isAssign).bind fun c =>
        (table.apply c.1 none c.2).1 := by
    have hfind : as.find? ((fun c => c.1.isAssign) ∘ Application.content) =
        as.find? fun a => a.operator.isAssign := rfl
    rw [assignedValue, List.find?_map, Option.bind_map, hfind]
    cases as.find? (fun a => a.operator.isAssign) <;> rfl
  have hplain {i : Identity} (hbase : i.base = base) (hi : i.operator.isAssign = true) :
      i = ⟨.assign, base⟩ := by
    obtain ⟨operator, b⟩ := i
    cases operator <;> simp_all [Operator.isAssign]
  rw [hvalue, map_content_numbered, contentsAt_declared, List.find?_map, Option.bind_map]
  cases hfind : List.find? ((fun c => c.1.isAssign) ∘ fun i => (i.operator, table.operandsAt i t))
      ((table.identities t).filter fun i => i.base == base && !i.isRootMerge).eraseDups with
  | some i =>
    have hmem := List.mem_eraseDups.1 (List.mem_of_find?_eq_some hfind)
    have hbase : i.base = base := by simpa using (Bool.and_eq_true_iff.1 (List.mem_filter.1 hmem).2).1
    have hassign := List.find?_some hfind
    obtain rfl := hplain hbase hassign
    simp [apply, assignLast]
  | none =>
    have habsent : (⟨.assign, base⟩ : Identity) ∉ table.identities t := by
      intro hmem
      have hkeyed : (⟨.assign, base⟩ : Identity) ∈ ((table.identities t).filter fun i =>
          i.base == base && !i.isRootMerge).eraseDups :=
        List.mem_eraseDups.2 (List.mem_filter.2
          ⟨hmem, by simp [Identity.isRootMerge, Operator.isMerge]⟩)
      exact List.find?_eq_none.1 hfind _ hkeyed rfl
    rw [operandsAt, membersAt_eq_nil habsent]
    rfl

/-- A base key is reduced from its last plain operand, from the merges below in the order of their
levels, and from all other operators in the order in which they are applied. -/
theorem reduceBase_declared {below others : Contents}
    (hbelow : ((contentsAt (table.declared t) base).filter fun c => c.1.isMergeBelow).Perm below)
    (hothers : ((contentsAt (table.declared t) base).filter fun c => c.1.isApplied).Perm others)
    (houtwards : below.Pairwise fun c d => c.1.outwardRank ≤ d.1.outwardRank)
    (hapart : table.TellsApart (others.map Prod.fst))
    (hordered : others.Pairwise fun c d => table.AppliesBefore c.1 d.1) :
    table.reduceBase inner base (numbered (contentsAt (table.declared t) base)) =
      table.reduceArranged inner base (table.operandsAt ⟨.assign, base⟩ t).getLast? below
        others := by
  have hcontents (p : Operator → Bool) :
      ((numbered (contentsAt (table.declared t) base)).filter fun a => p a.operator).map
        Application.content = (contentsAt (table.declared t) base).filter fun c => p c.1 := by
    conv_rhs => rw [← map_content_numbered (contentsAt (table.declared t) base), List.filter_map]
    rfl
  have hnodup {p : Operator → Bool} {cs : Contents}
      (hcs : ((contentsAt (table.declared t) base).filter fun c => p c.1).Perm cs) :
      (cs.map Prod.fst).Nodup :=
    (hcs.map Prod.fst).nodup_iff.1
      ((List.filter_sublist.map Prod.fst).nodup (nodup_contentsAt table t base))
  have hmerge : ∀ c ∈ below, c.1.isMerge = true := fun c hc =>
    Operator.isMerge_of_isMergeBelow (List.mem_filter.1 (hbelow.mem_iff.2 hc)).2
  have hapart' : table.TellsApart (((numbered (contentsAt (table.declared t) base)).filter
      fun a => a.operator.isApplied).map Application.operator) := by
    refine hapart.mono fun o ho => ?_
    obtain ⟨a, ha, rfl⟩ := List.mem_map.1 ho
    have hmem : a.content ∈ (contentsAt (table.declared t) base).filter fun c => c.1.isApplied :=
      hcontents Operator.isApplied ▸ List.mem_map_of_mem ha
    exact List.mem_map_of_mem (hothers.mem_iff.1 hmem)
  have harranged := map_content_outwards hmerge (hnodup (p := Operator.isMergeBelow) hbelow)
    (hcontents Operator.isMergeBelow ▸ hbelow) houtwards
  have happlied := map_content_inOrder hapart' (hnodup (p := Operator.isApplied) hothers)
    (hcontents Operator.isApplied ▸ hothers) hordered
  rw [reduceBase_eq_reduceArranged, assignedValue_declared, harranged]
  exact congrArg (table.reduceArranged inner base _ below) happlied

end Declared

end OperatorTable

end Overlay
