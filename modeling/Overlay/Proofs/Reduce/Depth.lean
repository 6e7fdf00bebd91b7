import Overlay.Reduce

/-!
# Depth does not change an answer

A reduction asks the reduction of inner trees for answers and has none where one of these is
missing. With more answers to ask for it has more answers itself, and those it had before stay.
So every greater depth gives the same tree, and a tree reduces to one tree at most.
-/

namespace Overlay

/-- An answer is kept by another if the other is the same, or if there is none to be kept. -/
def KeptBy {α : Type} (a b : Option α) : Prop := ∀ x, a = some x → b = some x

namespace KeptBy

variable {α β σ : Type}

/-- Every answer keeps itself. -/
theorem refl (a : Option α) : KeptBy a a := fun _ h => h

/-- A missing answer is kept by all others. -/
theorem none_left (b : Option α) : KeptBy none b := fun _ h => absurd h (by simp)

/-- What is computed from an answer is kept together with the answer. -/
theorem bind {a b : Option α} {f g : α → Option β} (h : KeptBy a b) (hfg : ∀ x, KeptBy (f x) (g x)) :
    KeptBy (a.bind f) (b.bind g) := by
  cases a with
  | none => exact none_left _
  | some x =>
    rw [h x rfl]
    exact hfg x

/-- A mapped answer is kept together with the answer. -/
theorem map {a b : Option α} (h : KeptBy a b) (f : α → β) : KeptBy (a.map f) (b.map f) := by
  cases a with
  | none => exact none_left _
  | some x =>
    rw [h x rfl]
    exact refl _

/-- A run is kept if every step is. -/
theorem foldlM {step step' : σ → α → Option σ} (h : ∀ s a, KeptBy (step s a) (step' s a))
    (as : List α) (s : σ) : KeptBy (as.foldlM step s) (as.foldlM step' s) := by
  induction as generalizing s with
  | nil => exact refl _
  | cons a rest ih =>
    rw [List.foldlM_cons, List.foldlM_cons]
    exact (h s a).bind ih

/-- Answers for all elements of a list are kept if each of them is. -/
theorem mapM {f g : α → Option β} (h : ∀ a, KeptBy (f a) (g a)) (as : List α) :
    KeptBy (as.mapM f) (as.mapM g) := by
  induction as with
  | nil => exact refl _
  | cons a rest ih =>
    rw [List.mapM_cons, List.mapM_cons]
    exact (h a).bind fun b => ih.bind fun _ => refl _

end KeptBy

/-- A reduction keeps the answers of another. -/
def Reduction.Extends (outer inner : Reduction) : Prop := ∀ t, KeptBy (inner t) (outer t)

section Kept

variable {inner outer : Reduction} (h : outer.Extends inner)

include h

/-- The reduction of a value is kept. -/
theorem keptBy_reduceWith (v : Value) : KeptBy (v.reduceWith inner) (v.reduceWith outer) := by
  cases v with
  | tree t => exact (h t).map Value.tree
  | _ => exact KeptBy.refl _

/-- The reduction of a value that may be absent is kept. -/
theorem keptBy_reducePresent (v : Option Value) :
    KeptBy (reducePresent inner v) (reducePresent outer v) := by
  cases v with
  | none => exact KeptBy.refl _
  | some v => exact (keptBy_reduceWith h v).map some

/-- Settling a value is kept. -/
theorem keptBy_settle (p : Progress) : KeptBy (p.settle inner) (p.settle outer) := by
  unfold Progress.settle
  by_cases hp : p.settled = true
  · rw [if_pos hp, if_pos hp]
    exact KeptBy.refl _
  · rw [if_neg hp, if_neg hp]
    exact keptBy_reducePresent h p.value

variable (table : OperatorTable)

/-- Merging a patch with a value is kept. -/
theorem keptBy_mergePatch (side : Side) (value : Option Value) (patch : Value) :
    KeptBy (table.mergePatch inner side value patch) (table.mergePatch outer side value patch) := by
  have hpatch := keptBy_reduceWith h patch
  cases value with
  | none => cases side <;> exact hpatch
  | some value =>
    cases value with
    | tree t =>
      cases patch with
      | tree p => exact (h _).map Value.tree
      | _ => cases side <;> exact KeptBy.refl _
    | _ => cases side <;> first | exact KeptBy.refl _ | exact hpatch

/-- Merging all operands of a merge with a value is kept. -/
theorem keptBy_mergeOperands (value : Option Value) (a : Application) :
    KeptBy (table.mergeOperands inner value a) (table.mergeOperands outer value a) := by
  unfold OperatorTable.mergeOperands
  cases a.operator with
  | merge side level =>
    exact KeptBy.foldlM (fun value patch => (keptBy_mergePatch h table side value patch).map some) _ _
  | _ => exact KeptBy.refl _

/-- Applying an operator is kept. -/
theorem keptBy_advance (p : Progress) (a : Application) :
    KeptBy (table.advance inner p a) (table.advance outer p a) := by
  unfold OperatorTable.advance
  by_cases hmerge : a.operator.isMerge = true
  · rw [if_pos hmerge, if_pos hmerge]
    exact (keptBy_settle h p).bind fun value =>
      (keptBy_mergeOperands h table value a).bind fun _ => KeptBy.refl _
  · rw [if_neg hmerge, if_neg hmerge]
    exact KeptBy.refl _

/-- Applying all operators at a base key is kept. -/
theorem keptBy_applyAll (as : List Application) :
    KeptBy (table.applyAll inner as) (table.applyAll outer as) := by
  unfold OperatorTable.applyAll
  apply (keptBy_reducePresent h _).bind
  intro start
  apply (KeptBy.foldlM (keptBy_mergeOperands h table) _ start).bind
  intro value
  apply (KeptBy.foldlM (keptBy_advance h table) _ _).bind
  intro p
  exact (keptBy_settle h p).bind fun _ => KeptBy.refl _

/-- The entries of a base key are kept. -/
theorem keptBy_reduceBase (base : String) (as : List Application) :
    KeptBy (table.reduceBase inner base as) (table.reduceBase outer base as) := by
  unfold OperatorTable.reduceBase
  exact (keptBy_applyAll h table as).bind fun _ => KeptBy.refl _

/-- Merging with the whole tree is kept. -/
theorem keptBy_mergeRootOperands (t : Tree) (a : Application) :
    KeptBy (table.mergeRootOperands inner t a) (table.mergeRootOperands outer t a) := by
  unfold OperatorTable.mergeRootOperands
  cases a.operator with
  | merge side level =>
    apply KeptBy.foldlM
    intro t patch
    cases patch with
    | tree p => exact h _
    | _ => exact KeptBy.refl _
  | _ => exact KeptBy.refl _

/-- The reduction of a level is kept. -/
theorem keptBy_reduceLevel (t : Tree) :
    KeptBy (table.reduceLevel inner t) (table.reduceLevel outer t) := by
  unfold OperatorTable.reduceLevel
  apply (KeptBy.mapM (fun target => keptBy_reduceBase h table _ _) _).bind
  intro reduced
  exact KeptBy.foldlM (keptBy_mergeRootOperands h table) _ _

end Kept

namespace OperatorTable

variable {table : OperatorTable}

/-- One more depth keeps every answer. -/
theorem extends_reduceWithin_succ (table : OperatorTable) (depth : Nat) :
    Reduction.Extends (table.reduceWithin (depth + 1)) (table.reduceWithin depth) := by
  induction depth with
  | zero => exact fun t => KeptBy.none_left _
  | succ depth ih => exact fun t => keptBy_reduceLevel ih table t

/-- A greater depth gives the same tree. -/
theorem reduceWithin_mono {n m : Nat} (hnm : n ≤ m) {t r : Tree}
    (h : table.reduceWithin n t = some r) : table.reduceWithin m t = some r := by
  induction hnm with
  | refl => exact h
  | step _ ih => exact extends_reduceWithin_succ table _ t r ih

/-- A tree reduces to another if it does so within some depth. -/
def Reduces (table : OperatorTable) (t r : Tree) : Prop :=
  ∃ depth, table.reduceWithin depth t = some r

/-- A tree reduces to one tree at most. -/
theorem Reduces.unique {t r s : Tree} (hr : table.Reduces t r) (hs : table.Reduces t s) : r = s := by
  obtain ⟨n, hn⟩ := hr
  obtain ⟨m, hm⟩ := hs
  have hrn := reduceWithin_mono (Nat.le_max_left n m) hn
  have hsm := reduceWithin_mono (Nat.le_max_right n m) hm
  exact Option.some.inj (hrn.symm.trans hsm)

/-- A reduction that ends is one within some depth. -/
theorem reduces_of_reduce {t r : Tree} (h : table.reduce t = some r) : table.Reduces t r :=
  ⟨_, h⟩

end OperatorTable

end Overlay
