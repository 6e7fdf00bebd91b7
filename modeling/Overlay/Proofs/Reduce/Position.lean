import Overlay.Proofs.Runs
import Overlay.Reduce.Level

/-!
# Positions count by their order alone

Reduction compares the positions of operators and does nothing else with them. Numbering the
operators at a base key anew, in the same order, changes no value and no residue, so it does not
matter which keys stood between them.
-/

namespace Overlay

/-- The same operator at another position. -/
def Application.renumber (f : Nat → Nat) (a : Application) : Application :=
  { a with position := f a.position }

/-- A numbering keeps the order of the positions of operators. -/
def KeepsOrder (f : Nat → Nat) (as : List Application) : Prop :=
  ∀ a ∈ as, ∀ b ∈ as, a.position < b.position → f a.position < f b.position

namespace KeepsOrder

variable {f : Nat → Nat} {as bs : List Application}

/-- Fewer operators are kept in order too. -/
theorem mono (h : KeepsOrder f as) (hsub : ∀ a ∈ bs, a ∈ as) : KeepsOrder f bs :=
  fun a ha b hb => h a (hsub a ha) b (hsub b hb)

/-- Positions are compared alike before and after. -/
theorem lt_iff (h : KeepsOrder f as) {a b : Application} (ha : a ∈ as) (hb : b ∈ as) :
    f a.position < f b.position ↔ a.position < b.position := by
  refine ⟨fun hlt => ?_, h a ha b hb⟩
  rcases Nat.lt_trichotomy a.position b.position with hab | hab | hab
  · exact hab
  · rw [hab] at hlt
    omega
  · have := h b hb a ha hab
    omega

/-- Positions are compared alike before and after, also weakly. -/
theorem le_iff (h : KeepsOrder f as) {a b : Application} (ha : a ∈ as) (hb : b ∈ as) :
    f a.position ≤ f b.position ↔ a.position ≤ b.position := by
  have hba := h.lt_iff hb ha
  omega

/-- Different positions stay different. -/
theorem eq_iff (h : KeepsOrder f as) {a b : Application} (ha : a ∈ as) (hb : b ∈ as) :
    f a.position = f b.position ↔ a.position = b.position := by
  have hab := h.lt_iff ha hb
  have hba := h.lt_iff hb ha
  omega

end KeepsOrder

/-- Places whose parts are compared alike are compared alike. -/
theorem Place.notAfter_congr {a b c d : Place}
    (hpriority : a.priority = c.priority ∧ b.priority = d.priority)
    (hanchor : (a.anchor < b.anchor ↔ c.anchor < d.anchor) ∧ (a.anchor = b.anchor ↔ c.anchor = d.anchor))
    (hrank : a.rank = c.rank ∧ b.rank = d.rank)
    (hposition : a.position ≤ b.position ↔ c.position ≤ d.position) :
    a.notAfter b = c.notAfter d := by
  rw [Bool.eq_iff_iff, notAfter_iff, notAfter_iff, hpriority.1, hpriority.2, hrank.1, hrank.2,
    hanchor.1, hanchor.2, hposition]

/-- Inserting commutes with a map under which places are compared alike. -/
theorem insertByPlace_map {α β : Type} {place : α → Place} {place' : β → Place} (g : α → β) {a : α}
    {as : List α}
    (h : ∀ b ∈ as, (place' (g a)).notAfter (place' (g b)) = (place a).notAfter (place b)) :
    insertByPlace place' (g a) (as.map g) = (insertByPlace place a as).map g := by
  induction as with
  | nil => rfl
  | cons b rest ih =>
    have hrest := ih fun c hc => h c (List.mem_cons_of_mem _ hc)
    rw [List.map_cons, insertByPlace, insertByPlace, h b List.mem_cons_self]
    split
    · rfl
    · rw [hrest, List.map_cons]

/-- Ordering commutes with a map under which places are compared alike. -/
theorem orderByPlace_map {α β : Type} {place : α → Place} {place' : β → Place} (g : α → β)
    {as : List α} (h : ∀ a ∈ as, ∀ b ∈ as,
      (place' (g a)).notAfter (place' (g b)) = (place a).notAfter (place b)) :
    orderByPlace place' (as.map g) = (orderByPlace place as).map g := by
  induction as with
  | nil => rfl
  | cons a rest ih =>
    have hrest := ih fun b hb c hc =>
      h b (List.mem_cons_of_mem _ hb) c (List.mem_cons_of_mem _ hc)
    rw [List.map_cons, orderByPlace, orderByPlace, hrest]
    apply insertByPlace_map g
    intro b hb
    have hb' : b ∈ rest := (orderByPlace_perm place rest).mem_iff.1 hb
    exact h a List.mem_cons_self b (List.mem_cons_of_mem _ hb')

section Order

variable {f : Nat → Nat} {as : List Application}

/-- The first position of a central operator is that of one of the operators. -/
theorem exists_position_eq_centralPosition {a : Application} (ha : a ∈ as)
    (hcentral : a.operator.isCentral = true) :
    ∃ b ∈ as, centralPosition as = b.position ∧ b.operator.isCentral = true ∧
      ∀ c ∈ as, c.operator.isCentral = true → b.position ≤ c.position := by
  have hmem : a.position ∈ (as.filter fun a => a.operator.isCentral).map Application.position :=
    List.mem_map_of_mem (List.mem_filter.2 ⟨ha, hcentral⟩)
  obtain ⟨m, hm⟩ := Option.isSome_iff_exists.1 (List.isSome_min?_of_mem hmem)
  obtain ⟨hmem, hle⟩ := List.min?_eq_some_iff.1 hm
  obtain ⟨b, hb, hbm⟩ := List.mem_map.1 hmem
  obtain ⟨hb, hbcentral⟩ := List.mem_filter.1 hb
  refine ⟨b, hb, by simp [centralPosition, hm, hbm], hbcentral, fun c hc hccentral => ?_⟩
  rw [hbm]
  exact hle _ (List.mem_map_of_mem (List.mem_filter.2 ⟨hc, hccentral⟩))

/-- The first central position moves with the numbering. -/
theorem centralPosition_renumber (h : KeepsOrder f as) {a : Application} (ha : a ∈ as)
    (hcentral : a.operator.isCentral = true) :
    centralPosition (as.map (Application.renumber f)) = f (centralPosition as) := by
  obtain ⟨b, hb, hposition, hbcentral, hle⟩ := exists_position_eq_centralPosition ha hcentral
  obtain ⟨c', hc', hposition', hccentral, hle'⟩ := exists_position_eq_centralPosition
    (List.mem_map_of_mem (f := Application.renumber f) ha) hcentral
  obtain ⟨c, hc, rfl⟩ := List.mem_map.1 hc'
  have hbc : b.position ≤ c.position := hle c hc hccentral
  have hcb : f c.position ≤ f b.position :=
    hle' (b.renumber f) (List.mem_map_of_mem hb) hbcentral
  have hlt := h.lt_iff hb hc
  have heq := h.eq_iff hb hc
  rw [hposition, hposition']
  change f c.position = f b.position
  omega

/-- The anchor of an operator is the position of some operator, before and after numbering. -/
theorem exists_anchor_eq (table : OperatorTable) (h : KeepsOrder f as) {a : Application}
    (ha : a ∈ as) :
    ∃ b ∈ as, (table.place as a).anchor = b.position ∧
      (table.place (as.map (Application.renumber f)) (a.renumber f)).anchor = f b.position := by
  by_cases hcentral : a.operator.isCentral = true
  · obtain ⟨b, hb, hposition, -, -⟩ := exists_position_eq_centralPosition ha hcentral
    have hcentral' : (a.renumber f).operator.isCentral = true := hcentral
    refine ⟨b, hb, ?_, ?_⟩
    · rw [OperatorTable.place, if_pos hcentral, hposition]
    · rw [OperatorTable.place, if_pos hcentral', centralPosition_renumber h ha hcentral, hposition]
  · have hcentral' : ¬(a.renumber f).operator.isCentral = true := hcentral
    refine ⟨a, ha, ?_, ?_⟩
    · rw [OperatorTable.place, if_neg hcentral]
    · rw [OperatorTable.place, if_neg hcentral']
      rfl

/-- The order of application is kept under a numbering. -/
theorem inOrder_renumber (table : OperatorTable) (h : KeepsOrder f as) :
    table.inOrder (as.map (Application.renumber f)) =
      (table.inOrder as).map (Application.renumber f) := by
  apply orderByPlace_map _
  intro a ha b hb
  obtain ⟨c, hc, hanchor, hanchor'⟩ := exists_anchor_eq table h ha
  obtain ⟨d, hd, hbnchor, hbnchor'⟩ := exists_anchor_eq table h hb
  refine Place.notAfter_congr ⟨rfl, rfl⟩ ?_ ⟨rfl, rfl⟩ (h.le_iff ha hb)
  rw [hanchor, hanchor', hbnchor, hbnchor']
  exact ⟨h.lt_iff hc hd, h.eq_iff hc hd⟩

/-- A numbering changes nothing but the position in the distance of a merge. -/
theorem distance_renumber (f : Nat → Nat) (a : Application) :
    (a.renumber f).distance = { a.distance with position := f a.position } := by
  obtain ⟨operator, operands, position⟩ := a
  cases operator with
  | merge side level => cases side <;> rfl
  | _ => rfl

/-- The last part of the distance of a merge is its position. -/
theorem position_distance (a : Application) : a.distance.position = a.position := by
  obtain ⟨operator, operands, position⟩ := a
  cases operator with
  | merge side level => cases side <;> rfl
  | _ => rfl

/-- The order of merges from the value outwards is kept under a numbering. -/
theorem outwards_renumber (h : KeepsOrder f as) :
    outwards (as.map (Application.renumber f)) = (outwards as).map (Application.renumber f) := by
  apply orderByPlace_map _
  intro a ha b hb
  rw [distance_renumber, distance_renumber]
  refine Place.notAfter_congr ⟨rfl, rfl⟩ ⟨Iff.rfl, Iff.rfl⟩ ⟨rfl, rfl⟩ ?_
  rw [position_distance, position_distance]
  exact h.le_iff ha hb

end Order

/-- A progress with the operators of its residue at other positions. -/
def Progress.renumber (f : Nat → Nat) (p : Progress) : Progress :=
  { p with residue := p.residue.map (Application.renumber f) }

namespace OperatorTable

variable (table : OperatorTable) (inner : Reduction) {f : Nat → Nat} {as : List Application}

/-- Applying an operator does not depend on its position. -/
theorem advance_renumber (p : Progress) (a : Application) :
    table.advance inner (p.renumber f) (a.renumber f) =
      (table.advance inner p a).map (Progress.renumber f) := by
  unfold advance
  by_cases hmerge : a.operator.isMerge = true
  · have hmerge' : (a.renumber f).operator.isMerge = true := hmerge
    rw [if_pos hmerge, if_pos hmerge']
    change (p.settle inner).bind _ = ((p.settle inner).bind _).map _
    cases p.settle inner with
    | none => rfl
    | some value =>
      change (table.mergeOperands inner value a).bind _ =
        ((table.mergeOperands inner value a).bind _).map _
      cases table.mergeOperands inner value a with
      | none => rfl
      | some value => rfl
  · have hmerge' : ¬(a.renumber f).operator.isMerge = true := hmerge
    rw [if_neg hmerge, if_neg hmerge']
    simp [Progress.renumber, Application.renumber]

/-- The value that is assigned does not depend on positions. -/
theorem assignedValue_renumber :
    table.assignedValue (as.map (Application.renumber f)) = table.assignedValue as := by
  have hfind : (as.map (Application.renumber f)).find? (fun a => a.operator.isAssign) =
      (as.find? fun a => a.operator.isAssign).map (Application.renumber f) := List.find?_map
  rw [assignedValue, assignedValue, hfind]
  cases as.find? fun a => a.operator.isAssign <;> rfl

/-- Merging with a value depends on the order of the positions alone. -/
theorem foldlM_mergeOperands_renumber (h : KeepsOrder f as) (value : Option Value) :
    (outwards (as.map (Application.renumber f))).foldlM (table.mergeOperands inner) value =
      (outwards as).foldlM (table.mergeOperands inner) value := by
  rw [outwards_renumber h, List.foldlM_map]
  rfl

/-- Applying all operators at a base key depends on the order of their positions alone. -/
theorem applyAll_renumber (h : KeepsOrder f as) :
    table.applyAll inner (as.map (Application.renumber f)) =
      (table.applyAll inner as).map fun r => (r.1, r.2.map (Application.renumber f)) := by
  have hfilter (p : Operator → Bool) :
      (as.map (Application.renumber f)).filter (fun a => p a.operator) =
        (as.filter fun a => p a.operator).map (Application.renumber f) := List.filter_map
  have hsub (p : Operator → Bool) : KeepsOrder f (as.filter fun a => p a.operator) :=
    h.mono fun a ha => (List.mem_filter.1 ha).1
  rw [applyAll, applyAll, assignedValue_renumber, hfilter Operator.isMergeBelow,
    hfilter fun o => !o.isAssign && !o.isMergeBelow]
  have hrun (value : Option Value) := foldlM_map_hom (Progress.renumber f) (Application.renumber f)
    (table.advance_renumber inner (f := f))
    (table.inOrder (as.filter fun a => !a.operator.isAssign && !a.operator.isMergeBelow))
    ⟨value, true, []⟩
  simp only [Option.bind_eq_bind, Option.map_bind]
  apply Option.bind_congr
  intro start _
  rw [Function.comp_apply, Option.map_bind,
    foldlM_mergeOperands_renumber table inner (hsub Operator.isMergeBelow)]
  apply Option.bind_congr
  intro value _
  rw [Function.comp_apply, Option.map_bind,
    inOrder_renumber table (hsub fun o => !o.isAssign && !o.isMergeBelow)]
  refine (congrArg (Option.bind · _) (hrun value)).trans ?_
  rw [Option.bind_map]
  apply Option.bind_congr
  intro p _
  rw [Function.comp_apply, Function.comp_apply, Option.map_bind]
  rfl

/-- Reducing a base key does not depend on the positions of its operators, only on the order of
these. -/
theorem reduceBase_renumber (base : String) (h : KeepsOrder f as) :
    table.reduceBase inner base (as.map (Application.renumber f)) =
      table.reduceBase inner base as := by
  rw [reduceBase, reduceBase, applyAll_renumber table inner h]
  cases table.applyAll inner as with
  | none => rfl
  | some r =>
    change some _ = some _
    rw [List.filterMap_map]
    rfl

end OperatorTable

end Overlay
