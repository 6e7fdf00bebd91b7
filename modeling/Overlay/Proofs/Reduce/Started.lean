import Mathlib.Logic.Relation
import Overlay.Proofs.Reduce.Termination

/-!
# The reductions that a reduction starts

Reducing a level asks the reduction of inner trees for answers: of values at plain keys, of values between
operators, of patches that meet no value, and of merged trees, at base keys and with the whole tree. Each of
them is started, and a level that starts one has no answer without the answer to it. So the trees for which
a reduction is started can be told by leaving out one answer at a time.

Without custom operators they all weigh less than the tree that is reduced.
-/

namespace Overlay

/-- A reduction that has no answer for one tree. -/
def Reduction.without (inner : Reduction) (u : Tree) : Reduction :=
  fun t => if t = u then none else inner t

/-- Leaving out an answer keeps the others. -/
theorem Reduction.extends_without (inner : Reduction) (u : Tree) :
    Reduction.Extends inner (inner.without u) := by
  intro t r h
  unfold without at h
  split at h
  · simp at h
  · exact h

namespace OperatorTable

variable {t u : Tree}

/-- The reduction of a tree starts that of another if it has no answer without the answer for the other. -/
def Starts (t u : Tree) : Prop := empty.reduceLevel (Reduction.without empty.reduce u) t = none

instance : Decidable (Starts t u) := inferInstanceAs (Decidable (_ = none))

/-- Reductions that are not started have no part in the answer: any other answers in their place would do. -/
theorem reduceLevel_of_not_starts (h : ¬ Starts t u) {inner : Reduction}
    (hinner : ∀ v, v ≠ u → inner v = empty.reduce v) :
    empty.reduceLevel inner t = empty.reduce t := by
  obtain ⟨r, hr⟩ := Option.ne_none_iff_exists'.1 h
  have hextends : inner.Extends (Reduction.without empty.reduce u) := by
    intro v s hs
    unfold Reduction.without at hs
    split at hs
    · simp at hs
    · next hne => rw [hinner v hne, hs]
  have hreduce := keptBy_reduceLevel (Reduction.extends_without empty.reduce u) empty t r hr
  rw [reduceLevel_reduce] at hreduce
  rw [hreduce]
  exact keptBy_reduceLevel hextends empty t r hr

/-- A reduction is started for lighter trees only. -/
theorem weight_lt_of_starts (h : Starts t u) : u.weight < t.weight := by
  by_contra hweight
  -- A level asks for answers below its own weight, and all of these are there without that for the tree.
  have hanswers : (Reduction.without empty.reduce u).Answers t.weight := by
    intro v hv
    have hne : v ≠ u := fun heq => hweight (heq ▸ hv)
    rw [Reduction.without, if_neg hne]
    exact exists_reduce v
  obtain ⟨r, hr, -⟩ := exists_reduceLevel_empty hanswers (Nat.le_refl _)
  exact absurd (h.symm.trans hr) (by simp)

/-- Without custom operators reduction ends and never grows a tree: each tree can be reduced within a depth
given by its weight, to a tree that weighs no more, and every reduction that is started on the way, by the
tree or by a reduction that was started before, is that of a tree that weighs less. -/
theorem reduction_ends_without_growth (t : Tree) :
    (∃ r, empty.reduceWithin (t.weight + 1) t = some r ∧ empty.reduce t = some r ∧
        r.weight ≤ t.weight) ∧
      ∀ u, Relation.TransGen Starts t u → u.weight < t.weight := by
  constructor
  · obtain ⟨r, hr, hweight⟩ := answers_reduceWithin (t.weight + 1) t (Nat.lt_succ_self _)
    exact ⟨r, hr, reduces_iff_reduce.1 ⟨_, hr⟩, hweight⟩
  · intro u h
    induction h with
    | single h => exact weight_lt_of_starts h
    | tail _ h ih => exact Nat.lt_trans (weight_lt_of_starts h) ih

/-- One reduction of each kind: of a value, of its merge with the patch below, of what comes of this before
the patch above, of the merge with that patch, of a patch without a value, of a value and of what comes of it
behind an operator, and of the merge of the whole tree with a patch, which starts one more. -/
theorem reduction_ends_without_growth_for_each_kind :
    let t : Tree := [("aura", .tree [("heat", .number (.int 2)), ("+heat", .number (.int 1)),
        ("+range", .number (.int 1))]), ("<*aura", .tree [("range", .number (.int 5))]),
      ("+aura", .number (.int 2)), ("*>aura", .tree [("+heat", .number (.int 4))]),
      ("*>fog", .tree [("+x", .number (.int 1))]),
      ("rain", .tree [("y", .number (.int 2)), ("+y", .number (.int 1))]), ("#+rain", .array []),
      ("*>", .tree [("*>rain", .tree [("+y", .number (.int 6))])])]
    let whole : Tree := [("aura", .tree [("range", .number (.int 6)), ("heat", .number (.int 7))]),
      ("+aura", .number (.int 2)), ("fog", .tree [("+x", .number (.int 1))]),
      ("rain", .tree [("y", .number (.int 3))]), ("*>rain", .tree [("+y", .number (.int 6))])]
    let started : List Tree := [
      [("heat", .number (.int 2)), ("+heat", .number (.int 1)), ("+range", .number (.int 1))],
      [("range", .number (.int 5)), ("heat", .number (.int 3)), ("+range", .number (.int 1))],
      [("range", .number (.int 6)), ("heat", .number (.int 3))],
      [("range", .number (.int 6)), ("heat", .number (.int 3)), ("+heat", .number (.int 4))],
      [("+x", .number (.int 1))], [("y", .number (.int 2)), ("+y", .number (.int 1))],
      [("y", .number (.int 3))], whole]
    let later : Tree := [("y", .number (.int 3)), ("+y", .number (.int 6))]
    (∃ r, empty.reduce t = some r ∧ r.weight ≤ t.weight) ∧
      (∀ u ∈ started, Starts t u ∧ u.weight < t.weight) ∧
        Relation.TransGen Starts t later ∧ later.weight < t.weight := by
  intro t whole started later
  have hstarted : ∀ u ∈ started, Starts t u := by decide +kernel
  have hlater : Relation.TransGen Starts t later :=
    .tail (.single (hstarted whole (by decide +kernel))) (by decide +kernel)
  obtain ⟨⟨r, -, hr, hweight⟩, hlighter⟩ := reduction_ends_without_growth t
  exact ⟨⟨r, hr, hweight⟩, fun u hu => ⟨hstarted u hu, hlighter u (.single (hstarted u hu))⟩, hlater,
    hlighter later hlater⟩

end OperatorTable

end Overlay
