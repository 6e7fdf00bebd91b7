import Overlay.Proofs.Mirror.Stack
import Overlay.Proofs.Reduce.NormalForm

/-!
# Reducing mirrored trees

Reduction goes through mirrored trees in step. At each base key the same operators stand in the same order
with mirrored operands, and every step from there keeps the values and the residue mirrored: numbers are the
same, arrays are joined and trees are merged and reduced on both sides. So of two mirrored trees both are
reduced or neither is, and to mirrored trees. It is the inner reduction that carries the argument from one
depth to the next.
-/

namespace Overlay

/-- An operator at a base key, apart from a table, and the same operator with mirrored operands. -/
structure Application.Mirrored (table : OperatorTable) (h : Value → Value) (base : String)
    (a b : Application) : Prop where
  operator_eq : b.operator = a.operator
  position_eq : b.position = a.position
  apartFrom : Identity.ApartFrom table ⟨a.operator, base⟩
  operands : OperandsMirrored table h a.operands b.operands

/-- Values that may be absent, and are mirrored where they are present. -/
abbrev PresentMirrored (table : OperatorTable) (h : Value → Value) (v w : Option Value) : Prop :=
  Option.Rel (Value.Mirrored table h false) v w

/-- What has been reached at a base key, and the same with mirrored values and operands. -/
structure Progress.Mirrored (table : OperatorTable) (h : Value → Value) (base : String)
    (p q : Progress) : Prop where
  value : PresentMirrored table h p.value q.value
  settled_eq : q.settled = p.settled
  residue : List.Forall₂ (Application.Mirrored table h base) p.residue q.residue

/-- Two reductions that reduce mirrored trees to mirrored trees, or both have no answer. -/
def Reduction.Mirrored (table : OperatorTable) (h : Value → Value) (inner inner' : Reduction) : Prop :=
  ∀ t u, Tree.Mirrored table h t u → Option.Rel (Tree.Mirrored table h) (inner t) (inner' u)

section Order

variable {α β : Type} {R : α → β → Prop} {place : α → Place} {place' : β → Place}

/-- Inserting keeps lists related, if related elements have the same place. -/
theorem rel_insertByPlace (hplace : ∀ a b, R a b → place' b = place a) {a : α} {b : β} (hab : R a b)
    {as : List α} {bs : List β} (h : List.Forall₂ R as bs) :
    List.Forall₂ R (insertByPlace place a as) (insertByPlace place' b bs) := by
  induction h with
  | nil => exact .cons hab .nil
  | cons hcd hrest ih =>
    rw [insertByPlace, insertByPlace, hplace _ _ hab, hplace _ _ hcd]
    split
    · exact .cons hab (.cons hcd hrest)
    · exact .cons hcd ih

/-- Ordering keeps lists related, if related elements have the same place. -/
theorem rel_orderByPlace (hplace : ∀ a b, R a b → place' b = place a) {as : List α} {bs : List β}
    (h : List.Forall₂ R as bs) :
    List.Forall₂ R (orderByPlace place as) (orderByPlace place' bs) := by
  induction h with
  | nil => exact .nil
  | cons hab _ ih => exact rel_insertByPlace hplace hab ih

end Order

variable {table : OperatorTable} {h : Value → Value} {base : String}

section Arranged

variable {as bs : List Application} (has : List.Forall₂ (Application.Mirrored table h base) as bs)

include has

/-- Mirrored merges stand in the same order outwards. -/
theorem mirrored_outwards :
    List.Forall₂ (Application.Mirrored table h base) (outwards as) (outwards bs) := by
  refine rel_orderByPlace (fun a b hab => ?_) has
  unfold Application.distance
  rw [hab.operator_eq, hab.position_eq]

/-- Mirrored operators are picked out alike. -/
theorem mirrored_filter (p : Operator → Bool) :
    List.Forall₂ (Application.Mirrored table h base) (as.filter fun a => p a.operator)
      (bs.filter fun b => p b.operator) := by
  refine List.rel_filter (fun a b hab => ?_) has
  change p a.operator ↔ p b.operator
  rw [hab.operator_eq]

/-- The first central operator has the same position. -/
theorem centralPosition_of_mirrored : centralPosition bs = centralPosition as := by
  have hpositions := List.rel_map (R := Application.Mirrored table h base) (P := Eq)
    (fun _ _ hab => hab.position_eq.symm) (mirrored_filter has Operator.isCentral)
  rw [List.forall₂_eq_eq_eq] at hpositions
  rw [centralPosition, centralPosition, hpositions]

/-- Mirrored operators are applied in the same order. -/
theorem mirrored_inOrder :
    List.Forall₂ (Application.Mirrored table h base) (table.inOrder as)
      (OperatorTable.empty.inOrder bs) := by
  refine rel_orderByPlace (fun a b hab => ?_) has
  -- Only custom operators have their priority from the table.
  have hpriority : OperatorTable.empty.priority a.operator = table.priority a.operator := by
    cases ho : a.operator with
    | custom name => exact absurd ho (hab.apartFrom.ne_custom name)
    | merge side level => cases side <;> rfl
    | _ => rfl
  unfold OperatorTable.place
  rw [hab.operator_eq, hab.position_eq, centralPosition_of_mirrored has, hpriority]

end Arranged

section Operators

variable {operands operands' : Operands} {v w : Option Value}
  (ho : OperandsMirrored table h operands operands') (hvw : PresentMirrored table h v w)

/-- The result of arithmetic is mirrored by itself. -/
theorem mirrored_toValue (n : Number) : Value.Mirrored table h false n.toValue n.toValue := by
  rcases toValue_cases n with hn | ⟨m, hn⟩ <;> rw [hn] <;>
    exact ⟨fun _ hkey => absurd hkey List.not_mem_nil, rfl⟩

include ho hvw

/-- Arithmetic makes the same of mirrored values and operands. -/
theorem mirrored_calculate (operation : Number → Number → Number) (unit : Number) :
    PresentMirrored table h (calculate operation unit v operands).1
        (calculate operation unit w operands').1 ∧
      OperandsMirrored table h (calculate operation unit v operands).2
        (calculate operation unit w operands').2 := by
  have hnumbers : operands'.filterMap Value.number? = operands.filterMap Value.number? := by
    induction ho with
    | nil => rfl
    | cons hfirst _ ih => rw [List.filterMap_cons, List.filterMap_cons, hfirst.number?, ih]
  have hvalue : w.bind Value.number? = v.bind Value.number? := by
    cases hvw with
    | none => rfl
    | some hvw => exact hvw.number?
  unfold calculate
  rw [hnumbers, hvalue]
  split
  · exact ⟨hvw, .nil⟩
  · split
    · exact ⟨.some (mirrored_toValue _), .nil⟩
    · exact ⟨hvw, .cons (mirrored_toValue _) .nil⟩

omit ho in
/-- Joining arrays makes mirrored values of mirrored ones. -/
theorem mirrored_spliceArrays {splice : List Value → List Value → List Value}
    (hsplice : ∀ items items' joined joined', ItemsMirrored table h items items' →
      ItemsMirrored table h joined joined' →
        ItemsMirrored table h (splice items joined) (splice items' joined'))
    {arrays arrays' : List (List Value)} (ha : List.Forall₂ (ItemsMirrored table h) arrays arrays') :
    PresentMirrored table h (spliceArrays splice arrays v).1 (spliceArrays splice arrays' w).1 ∧
      OperandsMirrored table h (spliceArrays splice arrays v).2 (spliceArrays splice arrays' w).2 := by
  have hflatten := mirrored_items_flatten ha
  cases ha with
  | nil => exact ⟨hvw, .nil⟩
  | cons =>
    cases hvw with
    | none => exact ⟨.none, .cons hflatten .nil⟩
    | @some v w hvw =>
      cases v with
      | array items =>
        obtain rfl : w = _ := hvw.eq
        exact ⟨.some (hsplice _ _ _ _ hvw hflatten), .nil⟩
      | _ =>
        obtain rfl : w = _ := hvw.eq
        exact ⟨.some hvw, .cons hflatten .nil⟩

/-- An operator apart from the table makes mirrored values of mirrored ones, and leaves mirrored
operands. -/
theorem mirrored_apply {o : Operator} (hcustom : ∀ name, o ≠ .custom name) :
    PresentMirrored table h (table.apply o v operands).1
        (OperatorTable.empty.apply o w operands').1 ∧
      OperandsMirrored table h (table.apply o v operands).2
        (OperatorTable.empty.apply o w operands').2 := by
  cases o with
  | assign =>
    have hlast := rel_getLast? ho
    refine ⟨?_, .nil⟩
    change Option.Rel _ (operands.getLast?.or v) (operands'.getLast?.or w)
    generalize operands.getLast? = last, operands'.getLast? = last' at hlast
    cases hlast with
    | none => exact hvw
    | some hlast => exact .some hlast
  | add => exact mirrored_calculate ho hvw _ _
  | multiply => exact mirrored_calculate ho hvw _ _
  | prepend =>
    exact mirrored_spliceArrays hvw (fun _ _ _ _ hitems hjoined => mirrored_items_append hjoined hitems)
      (mirrored_arrays (List.rel_reverse ho))
  | append =>
    exact mirrored_spliceArrays hvw (fun _ _ _ _ => mirrored_items_append) (mirrored_arrays ho)
  | merge side level => exact ⟨hvw, ho⟩
  | custom name => exact absurd rfl (hcustom name)

end Operators

section Reducing

variable {inner inner' : Reduction} (hinner : Reduction.Mirrored table h inner inner')

include hinner

/-- Mirrored values are reduced to mirrored values. -/
theorem mirrored_reduceWith {v w : Value} (hvw : Value.Mirrored table h false v w) :
    Option.Rel (Value.Mirrored table h false) (v.reduceWith inner) (w.reduceWith inner') := by
  cases v with
  | tree t =>
    obtain rfl : w = _ := hvw.eq
    exact rel_map (hinner _ _ (mirrored_tree_iff.1 hvw)) fun _ _ htu => mirrored_tree_iff.2 htu
  | _ =>
    obtain rfl : w = _ := hvw.eq
    exact .some hvw

/-- Mirrored values that may be absent are reduced to mirrored values. -/
theorem mirrored_reducePresent {v w : Option Value} (hvw : PresentMirrored table h v w) :
    Option.Rel (PresentMirrored table h) (reducePresent inner v) (reducePresent inner' w) := by
  cases hvw with
  | none => exact .some .none
  | some hvw => exact rel_map (mirrored_reduceWith hinner hvw) fun _ _ hxy => .some hxy

/-- Mirrored trees are merged and reduced to mirrored trees. -/
theorem mirrored_mergeTrees (side : Side) {t u patch patch' : Tree} (htu : Tree.Mirrored table h t u)
    (hpatch : Tree.Mirrored table h patch patch') :
    Option.Rel (Tree.Mirrored table h) (table.mergeTrees inner side t patch)
      (OperatorTable.empty.mergeTrees inner' side u patch') := by
  cases side with
  | below => exact hinner _ _ (OperatorTable.mirrored_merge (.cons hpatch (.cons htu .nil)))
  | above => exact hinner _ _ (OperatorTable.mirrored_merge (.cons htu (.cons hpatch .nil)))

/-- Mirrored patches are merged with mirrored values. -/
theorem mirrored_mergePatch (side : Side) {v w : Option Value} {patch patch' : Value}
    (hvw : PresentMirrored table h v w) (hpatch : Value.Mirrored table h false patch patch') :
    Option.Rel (Value.Mirrored table h false) (table.mergePatch inner side v patch)
      (OperatorTable.empty.mergePatch inner' side w patch') := by
  have hreduced := mirrored_reduceWith hinner hpatch
  -- Two trees are merged; in all other cases one of value and patch prevails, by the side alone.
  cases hvw with
  | none => cases side <;> exact hreduced
  | @some v w hvw =>
    cases v with
    | tree t =>
      obtain rfl : w = _ := hvw.eq
      cases patch with
      | tree patch =>
        obtain rfl : patch' = _ := hpatch.eq
        have hmerged := mirrored_mergeTrees hinner side (mirrored_tree_iff.1 hvw)
          (mirrored_tree_iff.1 hpatch)
        exact rel_map hmerged fun _ _ htu => mirrored_tree_iff.2 htu
      | _ =>
        obtain rfl : patch' = _ := hpatch.eq
        cases side with
        | below => exact .some hvw
        | above => exact hreduced
    | _ =>
      obtain rfl : w = _ := hvw.eq
      cases side with
      | below => exact .some hvw
      | above => exact hreduced

/-- All mirrored patches of a merge are merged with mirrored values. -/
theorem mirrored_mergeOperands {v w : Option Value} {a b : Application} (hvw : PresentMirrored table h v w)
    (hab : Application.Mirrored table h base a b) :
    Option.Rel (PresentMirrored table h) (table.mergeOperands inner v a)
      (OperatorTable.empty.mergeOperands inner' w b) := by
  unfold OperatorTable.mergeOperands
  rw [hab.operator_eq]
  cases a.operator with
  | merge side level =>
    refine rel_foldlM hab.operands hvw fun v w patch patch' hvw hpatch => ?_
    exact rel_map (mirrored_mergePatch hinner side hvw hpatch) fun _ _ hxy => .some hxy
  | _ => exact .some hvw

/-- What has been reached at a base key is settled alike. -/
theorem mirrored_settle {p q : Progress} (hpq : Progress.Mirrored table h base p q) :
    Option.Rel (PresentMirrored table h) (p.settle inner) (q.settle inner') := by
  unfold Progress.settle
  rw [hpq.settled_eq]
  split
  · exact .some hpq.value
  · exact mirrored_reducePresent hinner hpq.value

/-- Applying mirrored operators keeps what has been reached mirrored. -/
theorem mirrored_advance {p q : Progress} {a b : Application} (hpq : Progress.Mirrored table h base p q)
    (hab : Application.Mirrored table h base a b) :
    Option.Rel (Progress.Mirrored table h base) (table.advance inner p a)
      (OperatorTable.empty.advance inner' q b) := by
  unfold OperatorTable.advance
  rw [hab.operator_eq]
  split
  · refine rel_bind (mirrored_settle hinner hpq) fun v w hvw => ?_
    refine rel_bind (mirrored_mergeOperands hinner hvw hab) fun v w hvw => ?_
    exact .some ⟨hvw, rfl, hpq.residue⟩
  · obtain ⟨hvalue, hleft⟩ := mirrored_apply hab.operands hpq.value hab.apartFrom.ne_custom
    refine .some ⟨hvalue, rfl, List.rel_append hpq.residue (.cons ?_ .nil)⟩
    exact ⟨rfl, hab.position_eq, hab.apartFrom, hleft⟩

section Base

variable {as bs : List Application} (has : List.Forall₂ (Application.Mirrored table h base) as bs)

include has

omit hinner in
/-- The values that plain keys assign are mirrored. -/
theorem mirrored_assignedValue :
    PresentMirrored table h (table.assignedValue as) (OperatorTable.empty.assignedValue bs) := by
  have hassign : Option.Rel (Application.Mirrored table h base) (as.find? fun a => a.operator.isAssign)
      (bs.find? fun b => b.operator.isAssign) :=
    rel_find? (fun a b hab => by rw [hab.operator_eq]) has
  unfold OperatorTable.assignedValue
  generalize as.find? _ = assign, bs.find? _ = assign' at hassign
  cases hassign with
  | none => exact .none
  | @some a b hab =>
    change PresentMirrored table h (table.apply a.operator none a.operands).1
      (OperatorTable.empty.apply b.operator none b.operands).1
    rw [hab.operator_eq]
    exact (mirrored_apply hab.operands .none hab.apartFrom.ne_custom).1

/-- The operators at a base key make mirrored values and leave mirrored operands. -/
theorem mirrored_applyAll :
    Option.Rel (fun r s => PresentMirrored table h r.1 s.1 ∧
        List.Forall₂ (Application.Mirrored table h base) r.2 s.2)
      (table.applyAll inner as) (OperatorTable.empty.applyAll inner' bs) := by
  have hbelow := mirrored_outwards (mirrored_filter has Operator.isMergeBelow)
  have hothers := mirrored_inOrder (mirrored_filter has fun o => !o.isAssign && !o.isMergeBelow)
  refine rel_bind (mirrored_reducePresent hinner (mirrored_assignedValue has)) fun v w hvw => ?_
  refine rel_bind (rel_foldlM hbelow hvw fun _ _ _ _ => mirrored_mergeOperands hinner) fun v w hvw => ?_
  have hstart : Progress.Mirrored table h base ⟨v, true, []⟩ ⟨w, true, []⟩ := ⟨hvw, rfl, .nil⟩
  refine rel_bind (rel_foldlM hothers hstart fun _ _ _ _ => mirrored_advance hinner) fun p q hpq => ?_
  exact rel_bind (mirrored_settle hinner hpq) fun v w hvw => .some ⟨hvw, hpq.residue⟩

/-- A base key that mentions no custom operator of the table is reduced to mirrored entries. -/
theorem mirrored_reduceBase (hbase : table.Unmentioned base.toList) :
    Option.Rel (Tree.Mirrored table h) (table.reduceBase inner base as)
      (OperatorTable.empty.reduceBase inner' base bs) := by
  refine rel_bind (mirrored_applyAll hinner has) fun r s hrs => .some (mirrored_iff_forall₂.2 ?_)
  obtain ⟨v, residue⟩ := r
  obtain ⟨w, residue'⟩ := s
  refine List.rel_append ?_ (List.rel_filterMap (fun a b hab => ?_) hrs.2)
  · have hvw : PresentMirrored table h v w := hrs.1
    cases hvw with
    | none => exact .nil
    | some hvw =>
      have hplain : (Key.plain base).identity.ApartFrom table := ⟨trivial, hbase⟩
      exact .cons (entryMirrored_encode hplain hvw) .nil
  · have hheld := mirrored_toValue? hab.operands
    unfold OperatorTable.residueEntry?
    rw [hab.operator_eq]
    refine rel_map hheld fun held held' hvalue => ?_
    obtain ⟨spread, v⟩ := held
    obtain ⟨spread', w⟩ := held'
    obtain ⟨rfl, hvw⟩ : spread' = spread ∧ Value.Mirrored table h spread v w := hvalue
    exact entryMirrored_encode hab.apartFrom hvw

end Base

/-- Merging with mirrored patches keeps whole trees mirrored. -/
theorem mirrored_mergeRootOperands {t u : Tree} {a b : Application} (htu : Tree.Mirrored table h t u)
    (hab : Application.Mirrored table h base a b) :
    Option.Rel (Tree.Mirrored table h) (table.mergeRootOperands inner t a)
      (OperatorTable.empty.mergeRootOperands inner' u b) := by
  unfold OperatorTable.mergeRootOperands
  rw [hab.operator_eq]
  cases a.operator with
  | merge side level =>
    refine rel_foldlM hab.operands htu fun t u patch patch' htu hpatch => ?_
    cases patch with
    | tree patch =>
      obtain rfl : patch' = _ := hpatch.eq
      exact mirrored_mergeTrees hinner side htu (mirrored_tree_iff.1 hpatch)
    | _ =>
      obtain rfl : patch' = _ := hpatch.eq
      exact .some htu
  | _ => exact .some htu

namespace OperatorTable

variable {t u : Tree} (htu : Tree.Mirrored table h t u)

include htu

omit hinner in
/-- Identities with their operands are numbered alike in mirrored trees. -/
theorem mirrored_numbered {is : List Identity} (his : ∀ i ∈ is, i ∈ table.identities t ∧ i.base = base) :
    List.Forall₂ (Application.Mirrored table h base)
      (numbered (is.map fun i => (i.operator, table.operandsAt i t)))
      (numbered (is.map fun i => (i.operator, empty.operandsAt i u))) := by
  rw [numbered, numbered, List.zipIdx_map, List.zipIdx_map, List.map_map, List.map_map,
    List.forall₂_map_left_iff, List.forall₂_map_right_iff, List.forall₂_same]
  intro p hp
  obtain ⟨hi, rfl⟩ := his p.1 (List.fst_mem_of_mem_zipIdx hp)
  exact ⟨rfl, rfl, apartFrom_of_mem_identities htu hi, mirrored_operandsAt htu p.1⟩

/-- The base keys of mirrored trees are reduced to mirrored entries. -/
theorem mirrored_levelEntries :
    Option.Rel (Tree.Mirrored table h) (table.levelEntries inner t) (empty.levelEntries inner' u) := by
  have hidentities := identities_of_mirrored htu
  have hbases : basesOf (empty.declared u) = basesOf (table.declared t) := by
    rw [basesOf_declared, basesOf_declared, hidentities]
  have hreduced (base base' : String) (hb : base = base' ∧ base ∈ basesOf (table.declared t)) :
      Option.Rel (Tree.Mirrored table h)
        (table.reduceBase inner base (numbered (contentsAt (table.declared t) base)))
        (empty.reduceBase inner' base' (numbered (contentsAt (empty.declared u) base'))) := by
    obtain ⟨rfl, hb⟩ := hb
    obtain ⟨i, hi, -, rfl⟩ := (mem_basesOf_iff table).1 hb
    rw [contentsAt_declared, contentsAt_declared, hidentities]
    refine mirrored_reduceBase hinner (mirrored_numbered htu fun j hj => ?_)
      (apartFrom_of_mem_identities htu hi).unmentioned
    have hj := List.mem_filter.1 (List.mem_eraseDups.1 hj)
    rw [Bool.and_eq_true, beq_iff_eq] at hj
    exact ⟨hj.1, hj.2.1⟩
  rw [levelEntries_eq, levelEntries_eq, hbases]
  exact rel_map (rel_mapM (List.forall₂_same.2 fun base hb => ⟨rfl, hb⟩) hreduced)
    fun _ _ => mirrored_flatten

/-- A level of mirrored trees is reduced to mirrored trees. -/
theorem mirrored_reduceLevel :
    Option.Rel (Tree.Mirrored table h) (table.reduceLevel inner t) (empty.reduceLevel inner' u) := by
  rw [reduceLevel_eq_entries, reduceLevel_eq_entries]
  refine rel_bind (mirrored_levelEntries hinner htu) fun r s hrs => ?_
  -- Merges with the whole tree have the empty base key.
  have hroot : List.Forall₂ (Application.Mirrored table h "")
      (numbered (rootContents (table.declared t))) (numbered (rootContents (empty.declared u))) := by
    rw [rootContents_declared, rootContents_declared, identities_of_mirrored htu]
    refine mirrored_numbered htu fun i hi => ?_
    have hi := List.mem_filter.1 (List.mem_eraseDups.1 hi)
    have hbase := (Bool.and_eq_true_iff.1 hi.2).2
    exact ⟨hi.1, by simpa using hbase⟩
  exact rel_foldlM (mirrored_outwards hroot) hrs fun _ _ _ _ => mirrored_mergeRootOperands hinner

end OperatorTable

end Reducing

namespace OperatorTable

/-- Mirrored trees are reduced to mirrored trees within every depth. -/
theorem mirrored_reduceWithin (table : OperatorTable) (h : Value → Value) (depth : Nat) :
    Reduction.Mirrored table h (table.reduceWithin depth) (empty.reduceWithin depth) := by
  induction depth with
  | zero => exact fun _ _ _ => .none
  | succ depth ih => exact fun _ _ htu => mirrored_reduceLevel ih htu

end OperatorTable

end Overlay
