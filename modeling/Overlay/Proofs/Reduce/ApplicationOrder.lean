import Overlay.Proofs.Reduce.CustomOperators

/-!
# The order of application in rules

The operators at a base key are put in order by places. What comes of it can be told without places:
priorities ascend, the central operators stand together in the order of their ranks, a custom operator
of their priority stands in front of all of them exactly if it was declared before each of them, and
all other ties go by declaration. These rules leave no choice, so there is one arrangement that keeps
them, and it does not depend on the order in which the operators were given.
-/

namespace Overlay

section Sequence

variable {α : Type} {l : List α}

/-- Of two elements of a list one stands before the other. -/
theorem sublist_pair_or_swap {a b : α} (ha : a ∈ l) (hb : b ∈ l) (hne : a ≠ b) :
    [a, b].Sublist l ∨ [b, a].Sublist l := by
  obtain ⟨before, after, rfl⟩ := List.append_of_mem ha
  rcases List.mem_append.1 hb with hb | hb
  · exact Or.inr ((List.singleton_sublist.2 hb).append (List.singleton_sublist.2 List.mem_cons_self))
  · have hafter : b ∈ after := (List.mem_cons.1 hb).resolve_left (Ne.symm hne)
    exact Or.inl (((List.singleton_sublist.2 hafter).cons_cons a).trans
      (List.sublist_append_right before (a :: after)))

/-- Without repetitions no two elements stand before each other. -/
theorem not_sublist_swap (hnodup : l.Nodup) {a b : α} (hab : [a, b].Sublist l) :
    ¬[b, a].Sublist l := by
  have hsplit : ([a] ++ [b]).Sublist l := hab
  obtain ⟨before, after, rfl, ha, hb⟩ := List.append_sublist_iff.1 hsplit
  obtain ⟨-, -, hdisjoint⟩ := List.nodup_append.1 hnodup
  have ha : a ∈ before := List.singleton_sublist.1 ha
  have hb : b ∈ after := List.singleton_sublist.1 hb
  have hapart : (before ++ after).Pairwise fun c d => c = b → d ≠ a := by
    refine List.pairwise_append.2 ⟨List.pairwise_of_forall_mem_list fun c hc d _ hcb _ => ?_,
      List.pairwise_of_forall_mem_list fun c _ d hd _ hda => ?_, fun c hc d _ hcb _ => ?_⟩
    · exact hdisjoint c hc b hb hcb
    · exact hdisjoint a ha d hd hda.symm
    · exact hdisjoint c hc b hb hcb
  exact fun hba => List.pairwise_iff_forall_sublist.1 hapart hba rfl rfl

/-- The elements of a kind stand together if nothing else comes between two of them. -/
theorem filter_isInfix {p : α → Bool}
    (h : ∀ a b c, [a, b, c].Sublist l → p a = true → p c = true → p b = true) :
    l.filter p <:+: l := by
  induction l with
  | nil => exact List.infix_rfl
  | cons a rest ih =>
    by_cases hp : p a = true
    · have hfirst : (a :: rest).Pairwise fun b c => p c = true → p b = true := by
        refine List.pairwise_cons.2 ⟨fun _ _ _ => hp, ?_⟩
        rw [List.pairwise_iff_forall_sublist]
        exact fun {b c} hbc => h a b c (hbc.cons_cons a) hp
      exact List.IsPrefix.isInfix ⟨_, filter_append_filter_not hfirst⟩
    · rw [List.filter_cons_of_neg hp]
      have hrest := ih fun b c d hbcd => h b c d (hbcd.cons a)
      exact hrest.trans (List.suffix_cons a rest).isInfix

end Sequence

/-- The central operators are listed in the order of their ranks. -/
theorem Operator.pairwise_centrals :
    Operator.centrals.Pairwise fun o o' => o.centralRank < o'.centralRank := by decide

/-- Distinct central operators in the order of their ranks are some of the four, in their order. -/
theorem Operator.sublist_centrals {operators : List Operator}
    (hcentral : ∀ o ∈ operators, o.isCentral = true)
    (hranks : operators.Pairwise fun o o' => o.centralRank < o'.centralRank) :
    operators.Sublist Operator.centrals := by
  have hnodup : operators.Nodup := hranks.imp fun hlt heq => by simp [heq] at hlt
  have hperm : operators.Perm (Operator.centrals.filter fun o => o ∈ operators) := by
    rw [List.perm_ext_iff_of_nodup hnodup ((by decide : Operator.centrals.Nodup).filter _)]
    intro o
    simpa using hcentral o
  have hsame := List.Perm.eq_of_pairwise (fun o o' _ _ hlt hgt => absurd hlt (Nat.lt_asymm hgt))
    hranks (Operator.pairwise_centrals.filter _) hperm
  rw [hsame]
  exact List.filter_sublist

namespace OperatorTable

variable (table : OperatorTable)

/-- Operators that are applied at a base key: each is given once and has a position of its own, and
those of priority zero are central or custom. -/
structure AppliedOnce (as : List Application) : Prop where
  operators : (as.map Application.operator).Nodup
  positions : (as.map Application.position).Nodup
  kinds : ∀ a ∈ as, table.priority a.operator = 0 →
    a.operator.isCentral = true ∨ a.operator.isCustom = true

/-- The rules of application for operators in a row. -/
structure Arranged (as : List Application) : Prop where
  /-- Priorities ascend. -/
  ascending : as.Pairwise fun a b => table.priority a.operator ≤ table.priority b.operator
  /-- The central operators stand together. -/
  together : (as.filter fun a => a.operator.isCentral) <:+: as
  /-- Products come before sums, and arithmetic before arrays. -/
  ranked : ((as.filter fun a => a.operator.isCentral).map Application.operator).Sublist
    [.multiply, .add, .prepend, .append]
  /-- A custom operator of priority zero stands in front of the central ones exactly if its position
  is smaller than the position of each of them. -/
  anchored : ∀ a ∈ as, a.operator.isCustom = true → table.priority a.operator = 0 →
    ((∀ c ∈ as, c.operator.isCentral = true → [a, c].Sublist as) ↔
      ∀ c ∈ as, c.operator.isCentral = true → a.position < c.position)
  /-- Operators of the same priority that are not central stand in the order of declaration. -/
  declared : as.Pairwise fun a b => table.priority a.operator = table.priority b.operator →
    a.operator.isCentral = false → b.operator.isCentral = false → a.position < b.position

variable {table} {as bs : List Application} {a b c : Application}

/-- A custom operator is not central. -/
theorem isCentral_of_isCustom {o : Operator} (h : o.isCustom = true) : o.isCentral = false := by
  obtain ⟨name, rfl⟩ := Operator.exists_name_of_isCustom h
  rfl

/-- Central operators have one anchor, which is the position of the first of them. -/
theorem place_of_central (ha : a.operator.isCentral = true) :
    table.place as a = ⟨0, centralPosition as, a.operator.centralRank, a.position⟩ := by
  simp [place, ha, priority_of_isCentral ha]

/-- All other operators are anchored at their own position. -/
theorem place_of_not_central (ha : a.operator.isCentral = false) :
    table.place as a = ⟨table.priority a.operator, a.position, 0, a.position⟩ := by
  have hrank : a.operator.centralRank = 0 := by
    cases hoperator : a.operator <;> simp_all [Operator.isCentral, Operator.centralRank]
  simp [place, ha, hrank]

/-- Central operators go by their ranks. -/
theorem notAfter_of_rank (ha : a.operator.isCentral = true) (hb : b.operator.isCentral = true)
    (hrank : a.operator.centralRank < b.operator.centralRank) :
    (table.place as a).notAfter (table.place as b) = true := by
  rw [place_of_central ha, place_of_central hb, Place.notAfter_iff]
  exact Or.inr ⟨rfl, Or.inr ⟨rfl, Or.inl hrank⟩⟩

/-- In the order of application priorities ascend. -/
theorem ascending_inOrder (as : List Application) : (table.inOrder as).Pairwise
    fun a b => table.priority a.operator ≤ table.priority b.operator := by
  refine (orderByPlace_ordered (table.place as) as).imp fun {a b} hab => ?_
  rw [Place.notAfter_iff] at hab
  change (table.place as a).priority ≤ (table.place as b).priority
  omega

namespace AppliedOnce

variable (h : table.AppliedOnce as)

include h

/-- An operator is told by its position. -/
theorem eq_of_position_eq (ha : a ∈ as) (hb : b ∈ as) (hab : a.position = b.position) : a = b :=
  List.inj_on_of_nodup_map h.positions ha hb hab

/-- Two operators do not come after each other. -/
theorem eq_of_notAfter (ha : a ∈ as) (hb : b ∈ as)
    (hab : (table.place as a).notAfter (table.place as b) = true)
    (hba : (table.place as b).notAfter (table.place as a) = true) : a = b := by
  rw [Place.notAfter_iff] at hab hba
  refine h.eq_of_position_eq ha hb ?_
  change (table.place as a).position = (table.place as b).position
  omega

/-- No operator beside the central ones is declared where the first of them is. -/
theorem position_ne_centralPosition (ha : a ∈ as) (hother : a.operator.isCentral = false)
    (hc : c ∈ as) (hcentral : c.operator.isCentral = true) : a.position ≠ centralPosition as := by
  obtain ⟨d, hd, hposition, hdcentral, -⟩ := exists_position_eq_centralPosition hc hcentral
  intro heq
  have had : a = d := h.eq_of_position_eq ha hd (heq.trans hposition)
  rw [had, hdcentral] at hother
  exact absurd hother (by simp)

/-- A custom operator of priority zero comes before a central one if it was declared before the first
of these. -/
theorem notAfter_central_iff (ha : a ∈ as) (hcustom : a.operator.isCustom = true)
    (hzero : table.priority a.operator = 0) (hc : c ∈ as) (hcentral : c.operator.isCentral = true) :
    (table.place as a).notAfter (table.place as c) = true ↔ a.position < centralPosition as := by
  have hother := isCentral_of_isCustom hcustom
  have hne := h.position_ne_centralPosition ha hother hc hcentral
  rw [place_of_not_central hother, place_of_central hcentral, Place.notAfter_iff]
  simp only [hzero, lt_self_iff_false, true_and, false_or]
  omega

/-- Of two operators the one with the lower place is applied first. -/
theorem sublist_inOrder_iff (ha : a ∈ as) (hb : b ∈ as) (hne : a ≠ b) :
    [a, b].Sublist (table.inOrder as) ↔
      (table.place as a).notAfter (table.place as b) = true := by
  have hordered {c d : Application} (hcd : [c, d].Sublist (table.inOrder as)) :
      (table.place as c).notAfter (table.place as d) = true :=
    List.pairwise_iff_forall_sublist.1 (orderByPlace_ordered (table.place as) as) hcd
  refine ⟨hordered, fun hab => ?_⟩
  have hmem {d : Application} (hd : d ∈ as) : d ∈ table.inOrder as :=
    (orderByPlace_perm _ _).mem_iff.2 hd
  refine (sublist_pair_or_swap (hmem ha) (hmem hb) hne).resolve_right fun hba => ?_
  exact hne (h.eq_of_notAfter ha hb hab (hordered hba))

/-- In the order of application the central operators stand together. -/
theorem together_inOrder :
    ((table.inOrder as).filter fun a => a.operator.isCentral) <:+: table.inOrder as := by
  refine filter_isInfix fun a b c habc ha hc => ?_
  by_contra hb
  have hother : b.operator.isCentral = false := by simpa using hb
  have hmem {d : Application} (hd : d ∈ [a, b, c]) : d ∈ as :=
    (orderByPlace_perm _ _).mem_iff.1 (habc.subset hd)
  have hpairwise := (orderByPlace_ordered (table.place as) as).sublist habc
  simp only [List.pairwise_cons, List.mem_cons, List.not_mem_nil, or_false, forall_eq_or_imp,
    forall_eq] at hpairwise
  obtain ⟨⟨hab, -⟩, hbc, -⟩ := hpairwise
  -- What stands between two central operators has their anchor, which only they have.
  rw [place_of_central ha, place_of_not_central hother, Place.notAfter_iff] at hab
  rw [place_of_central hc, place_of_not_central hother, Place.notAfter_iff] at hbc
  have hne := h.position_ne_centralPosition (hmem (by simp)) hother (hmem (d := c) (by simp)) hc
  simp only at hab hbc
  omega

/-- In the order of application the central operators go by their ranks. -/
theorem ranked_inOrder :
    (((table.inOrder as).filter fun a => a.operator.isCentral).map Application.operator).Sublist
      Operator.centrals := by
  have hperm : (table.inOrder as).Perm as := orderByPlace_perm _ _
  apply Operator.sublist_centrals
  · intro o ho
    obtain ⟨a, ha, rfl⟩ := List.mem_map.1 ho
    exact (List.mem_filter.1 ha).2
  · have hdistinct : (table.inOrder as).Pairwise fun a b => a.operator ≠ b.operator :=
      List.pairwise_map.1 ((hperm.map _).nodup_iff.2 h.operators)
    rw [List.pairwise_map, List.pairwise_filter]
    refine ((orderByPlace_ordered (table.place as) as).and hdistinct).imp
      fun {a b} hab ha hb => ?_
    obtain ⟨hab, hne⟩ := hab
    rw [place_of_central ha, place_of_central hb, Place.notAfter_iff] at hab
    have hranks : a.operator.centralRank ≠ b.operator.centralRank :=
      fun heq => hne (eq_of_centralRank_eq ha hb heq)
    simp only at hab
    omega

/-- In the order of application a custom operator of priority zero stands in front of the central ones
exactly if it was declared before each of them. -/
theorem anchored_inOrder (ha : a ∈ as) (hcustom : a.operator.isCustom = true)
    (hzero : table.priority a.operator = 0) :
    (∀ c ∈ as, c.operator.isCentral = true → [a, c].Sublist (table.inOrder as)) ↔
      ∀ c ∈ as, c.operator.isCentral = true → a.position < c.position := by
  have hfirst {c : Application} (hc : c ∈ as) (hcentral : c.operator.isCentral = true) :
      [a, c].Sublist (table.inOrder as) ↔ a.position < centralPosition as := by
    have hne : a ≠ c := by
      rintro rfl
      rw [isCentral_of_isCustom hcustom] at hcentral
      exact Bool.false_ne_true hcentral
    rw [h.sublist_inOrder_iff ha hc hne, h.notAfter_central_iff ha hcustom hzero hc hcentral]
  constructor
  · intro hall c hc hcentral
    obtain ⟨d, -, hposition, -, hle⟩ := exists_position_eq_centralPosition hc hcentral
    have hlt := (hfirst hc hcentral).1 (hall c hc hcentral)
    rw [hposition] at hlt
    exact Nat.lt_of_lt_of_le hlt (hle c hc hcentral)
  · intro hall c hc hcentral
    obtain ⟨d, hd, hposition, hdcentral, -⟩ := exists_position_eq_centralPosition hc hcentral
    exact (hfirst hc hcentral).2 (hposition ▸ hall d hd hdcentral)

/-- In the order of application all other ties go by declaration. -/
theorem declared_inOrder : (table.inOrder as).Pairwise fun a b =>
    table.priority a.operator = table.priority b.operator → a.operator.isCentral = false →
      b.operator.isCentral = false → a.position < b.position := by
  have hperm : (table.inOrder as).Perm as := orderByPlace_perm _ _
  have hdistinct : (table.inOrder as).Pairwise fun a b => a.position ≠ b.position :=
    List.pairwise_map.1 ((hperm.map _).nodup_iff.2 h.positions)
  refine ((orderByPlace_ordered (table.place as) as).and hdistinct).imp
    fun {a b} hab hpriority ha hb => ?_
  obtain ⟨hab, hne⟩ := hab
  rw [place_of_not_central ha, place_of_not_central hb, Place.notAfter_iff] at hab
  simp only at hab
  omega

/-- The order of application keeps the rules. -/
theorem arranged_inOrder : table.Arranged (table.inOrder as) where
  ascending := ascending_inOrder as
  together := h.together_inOrder
  ranked := h.ranked_inOrder
  anchored a ha hcustom hzero := by
    have hmem (c : Application) : c ∈ table.inOrder as ↔ c ∈ as := (orderByPlace_perm _ _).mem_iff
    simp only [hmem]
    exact h.anchored_inOrder ((hmem a).1 ha) hcustom hzero
  declared := h.declared_inOrder

end AppliedOnce

namespace Arranged

variable (hbs : table.Arranged bs)

include hbs

/-- What stands in front of one central operator and is not central stands in front of all of them. -/
theorem sublist_central (hnodup : bs.Nodup) (hab : [a, b].Sublist bs)
    (hother : a.operator.isCentral = false) (hcentral : b.operator.isCentral = true) :
    ∀ c ∈ bs, c.operator.isCentral = true → [a, c].Sublist bs := by
  intro c hc hccentral
  have hblock {d : Application} (hd : d ∈ bs) (hdcentral : d.operator.isCentral = true) :
      d ∈ bs.filter fun a => a.operator.isCentral := List.mem_filter.2 ⟨hd, hdcentral⟩
  obtain ⟨before, after, heq⟩ := hbs.together
  have ha : a ∈ before ++ (bs.filter fun a => a.operator.isCentral) ++ after := by
    rw [heq]
    exact hab.subset List.mem_cons_self
  rcases List.mem_append.1 ha with ha | ha
  · rcases List.mem_append.1 ha with ha | ha
    · have hac : [a, c].Sublist (before ++ bs.filter fun a => a.operator.isCentral) :=
        (List.singleton_sublist.2 ha).append (List.singleton_sublist.2 (hblock hc hccentral))
      rw [← heq]
      exact hac.trans (List.sublist_append_left _ after)
    · rw [(List.mem_filter.1 ha).2] at hother
      exact absurd hother (by simp)
  · have hb : b ∈ before ++ bs.filter fun a => a.operator.isCentral :=
      List.mem_append_right _ (hblock (hab.subset (by simp)) hcentral)
    have hba := (List.singleton_sublist.2 hb).append (List.singleton_sublist.2 ha)
    rw [heq] at hba
    exact absurd hba (not_sublist_swap hnodup hab)

/-- Of two central operators the one with the lower rank stands first. -/
theorem centralRank_lt (hab : [a, b].Sublist bs) (ha : a.operator.isCentral = true)
    (hb : b.operator.isCentral = true) : a.operator.centralRank < b.operator.centralRank := by
  have hblock : [a, b].Sublist (bs.filter fun a => a.operator.isCentral) := by
    have hboth : [a, b].filter (fun a => a.operator.isCentral) = [a, b] := by simp [ha, hb]
    rw [← hboth]
    exact hab.filter _
  have hranks := List.pairwise_map.1 (Operator.pairwise_centrals.sublist hbs.ranked)
  exact List.pairwise_iff_forall_sublist.1 hranks hblock

/-- The rules put operators in the order of their places. -/
theorem pairwise_place (h : table.AppliedOnce as) (hperm : bs.Perm as) :
    bs.Pairwise fun a b => (table.place as a).notAfter (table.place as b) = true := by
  have hnodup : bs.Nodup := List.Nodup.of_map _ ((hperm.map _).nodup_iff.2 h.positions)
  rw [List.pairwise_iff_forall_sublist]
  intro a b hab
  have ha : a ∈ as := hperm.mem_iff.1 (hab.subset (by simp))
  have hb : b ∈ as := hperm.mem_iff.1 (hab.subset (by simp))
  have hpriority := List.pairwise_iff_forall_sublist.1 hbs.ascending hab
  rcases Int.lt_or_eq_of_le hpriority with hlt | heq
  · exact Place.notAfter_iff.2 (Or.inl hlt)
  cases hacentral : a.operator.isCentral with
  | true =>
    have hzero : table.priority b.operator = 0 := by rw [← heq, priority_of_isCentral hacentral]
    cases hbcentral : b.operator.isCentral with
    | true => exact notAfter_of_rank hacentral hbcentral (hbs.centralRank_lt hab hacentral hbcentral)
    | false =>
      have hcustom := (h.kinds b hb hzero).resolve_left (by simp [hbcentral])
      -- It does not stand in front of the first one, so it does not come before the central ones.
      refine (Place.notAfter_total _ _).resolve_right fun hba => ?_
      have hlt := (h.notAfter_central_iff hb hcustom hzero ha hacentral).1 hba
      have hfront := (hbs.anchored b (hperm.mem_iff.2 hb) hcustom hzero).2 fun c hc hccentral => by
        obtain ⟨d, -, hposition, -, hle⟩ := exists_position_eq_centralPosition ha hacentral
        exact Nat.lt_of_lt_of_le hlt (hposition ▸ hle c (hperm.mem_iff.1 hc) hccentral)
      exact not_sublist_swap hnodup hab (hfront a (hperm.mem_iff.2 ha) hacentral)
  | false =>
    cases hbcentral : b.operator.isCentral with
    | true =>
      have hzero : table.priority a.operator = 0 := by rw [heq, priority_of_isCentral hbcentral]
      have hcustom := (h.kinds a ha hzero).resolve_left (by simp [hacentral])
      have hfront := (hbs.anchored a (hperm.mem_iff.2 ha) hcustom hzero).1
        (hbs.sublist_central hnodup hab hacentral hbcentral)
      obtain ⟨d, hd, hposition, hdcentral, -⟩ := exists_position_eq_centralPosition hb hbcentral
      exact (h.notAfter_central_iff ha hcustom hzero hb hbcentral).2
        (hposition ▸ hfront d (hperm.mem_iff.2 hd) hdcentral)
    | false =>
      have hlt := List.pairwise_iff_forall_sublist.1 hbs.declared hab heq hacentral hbcentral
      rw [place_of_not_central hacentral, place_of_not_central hbcentral, Place.notAfter_iff]
      exact Or.inr ⟨heq, Or.inl hlt⟩

/-- The rules leave one arrangement, which is the order of application. -/
theorem eq_inOrder (h : table.AppliedOnce as) (hperm : bs.Perm as) : bs = table.inOrder as := by
  have hsame : bs.Perm (table.inOrder as) := hperm.trans (orderByPlace_perm _ _).symm
  exact List.Perm.eq_of_pairwise (fun a b ha hb => h.eq_of_notAfter (hperm.mem_iff.1 ha)
      ((orderByPlace_perm _ _).mem_iff.1 hb))
    (hbs.pairwise_place h hperm) (orderByPlace_ordered _ _) hsame

end Arranged

section Collected

variable {t : Tree} {target : Target}

/-- A target has each operator once, at a position of its own. -/
theorem nodup_of_mem_targets (htarget : target ∈ (Level.ofTree table t).targets) :
    (target.applications.map Application.operator).Nodup ∧
      (target.applications.map Application.position).Nodup := by
  obtain ⟨hcontents, hincreasing⟩ := table.collected_of_mem_targets htarget
  constructor
  · have hoperators := nodup_contentsAt table t target.base
    rw [← hcontents, List.map_map] at hoperators
    exact hoperators
  · exact List.pairwise_map.2 (hincreasing.imp fun hlt => Nat.ne_of_lt hlt)

/-- The operators of a target that are applied after the merges below are each applied once. -/
theorem appliedOnce_of_mem_targets (htarget : target ∈ (Level.ofTree table t).targets)
    (has : as.Perm target.applications) :
    table.AppliedOnce (as.filter fun a => a.operator.isApplied) := by
  obtain ⟨hoperators, hpositions⟩ := nodup_of_mem_targets htarget
  refine ⟨?_, ?_, fun a ha hzero => ?_⟩
  · exact ((has.map _).nodup_iff.2 hoperators).sublist (List.filter_sublist.map _)
  · exact ((has.map _).nodup_iff.2 hpositions).sublist (List.filter_sublist.map _)
  · obtain ⟨ha, happlied⟩ := List.mem_filter.1 ha
    have hcontent : a.content ∈ contentsAt (table.declared t) target.base := by
      rw [← (table.collected_of_mem_targets htarget).1]
      exact List.mem_map_of_mem (has.mem_iff.1 ha)
    have hfits : a.operator.FitsBefore table target.base.toList :=
      fitsBefore_of_mem_contentsAt table hcontent
    rcases applied_cases hfits happlied with hcentral | ⟨level, hlevel, hmerge⟩ | ⟨name, _, _, hname⟩
    · exact Or.inl hcentral
    · have hpos : 1 ≤ level.toNat := UInt32.le_iff_toNat_le.1 hlevel
      rw [hmerge] at hzero
      simp only [priority, levelStep] at hzero
      omega
    · exact Or.inr (by rw [hname]; rfl)

end Collected

/-- There is one order of application: the operators that are collected at a base key, in whatever order
they are given, are each there once and at a position of their own, and those of them that neither
assign nor merge below the value are put in the one arrangement that keeps the rules. Priorities ascend,
the central operators stand together by their ranks, a custom operator of priority zero stands in front
of them exactly if it was declared before each of them, and all other ties go by declaration. -/
theorem operators_have_one_order (table : OperatorTable) (t : Tree) {target : Target}
    (htarget : target ∈ (Level.ofTree table t).targets) {as : List Application}
    (has : as.Perm target.applications) :
    (as.map Application.operator).Nodup ∧ (as.map Application.position).Nodup ∧
      let others := as.filter fun a => a.operator.isApplied
      (table.inOrder others).Perm others ∧ table.Arranged (table.inOrder others) ∧
        ∀ bs, bs.Perm others → table.Arranged bs → bs = table.inOrder others := by
  obtain ⟨hoperators, hpositions⟩ := nodup_of_mem_targets htarget
  have honce := appliedOnce_of_mem_targets htarget has
  exact ⟨(has.map _).nodup_iff.2 hoperators, (has.map _).nodup_iff.2 hpositions,
    orderByPlace_perm _ _, honce.arranged_inOrder, fun bs hperm hbs => hbs.eq_inOrder honce hperm⟩

/-- Eight operators at one base key, given from the last to the first: custom operators tie with the
central ones on both sides of the first of these, and with a merge above the value. -/
theorem operators_have_one_order_with_ties :
    let table : OperatorTable := ⟨[("early", ⟨0, fun value operands => (value, operands)⟩),
      ("late", ⟨0, fun value _ => (value, [])⟩), ("level", ⟨1000, fun value operands => (value, operands)⟩),
      ("first", ⟨-5, fun value operands => (value, operands)⟩)], by decide⟩
    let t : Tree := [("(level)s", .null), ("*>s", .tree []), ("(early)s", .null), ("+>s", .array []),
      ("(late)s", .null), ("*s", .number (.int 2)), ("(first)s", .null), ("s", .null), ("<*s", .tree []),
      ("#+s", .array [.number (.int 1)]), ("+s", .number (.int 1))]
    ∃ target ∈ (Level.ofTree table t).targets,
      let others := target.applications.reverse.filter fun a => a.operator.isApplied
      (table.inOrder others).map Application.operator = [.custom "first", .custom "early", .multiply,
        .add, .append, .custom "late", .custom "level", .merge .above 1] ∧
      table.Arranged (table.inOrder others) ∧
        ∀ bs, bs.Perm others → table.Arranged bs → bs = table.inOrder others := by
  intro table t
  let target : Target := (Level.ofTree table t).targets.get ⟨0, by decide +kernel⟩
  have htarget : target ∈ (Level.ofTree table t).targets := List.get_mem _ _
  obtain ⟨-, -, -, harranged, hunique⟩ :=
    operators_have_one_order table t htarget (List.reverse_perm _)
  exact ⟨target, htarget, by decide +kernel, harranged, hunique⟩

end OperatorTable

end Overlay
