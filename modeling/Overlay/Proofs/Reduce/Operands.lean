import Overlay.Proofs.Reduce.Declared
import Overlay.Proofs.Reduce.Depth

/-!
# Reduction sees operands alone

Two trees that declare the same identities in the same first-seen order, each with the same
operands, reduce to the same ordered tree. It does not matter under which spellings the operands
stand or how many keys they are spread over; in particular a tree may be stacked before it is
reduced.
-/

namespace Overlay

/-- Two trees have the same identities in first-seen order, and the same operands at each. -/
structure SameOperands (table : OperatorTable) (t u : Tree) : Prop where
  identities_eq : (table.identities t).eraseDups = (table.identities u).eraseDups
  operands_eq : ∀ i, table.operandsAt i t = table.operandsAt i u

namespace OperatorTable

variable {table : OperatorTable} {t u : Tree}

/-- An identity that does not occur has no operands. -/
theorem operandsAt_eq_nil {i : Identity} (hi : i ∉ table.identities t) :
    table.operandsAt i t = [] := by
  rw [operandsAt, membersAt_eq_nil hi, List.flatMap_nil]

/-- The identities that are declared are those of the tree in first-seen order. -/
theorem map_fst_declared (table : OperatorTable) (t : Tree) :
    (table.declared t).map Prod.fst = (table.identities t).eraseDups := by
  rw [declared, List.map_map]
  exact List.map_id _

/-- Trees have the same operands exactly when they declare the same. -/
theorem sameOperands_iff : SameOperands table t u ↔ table.declared t = table.declared u := by
  constructor
  · intro h
    rw [declared, declared, h.identities_eq]
    exact List.map_congr_left fun i _ => by rw [h.operands_eq i]
  · intro h
    have hidentities : (table.identities t).eraseDups = (table.identities u).eraseDups := by
      rw [← map_fst_declared, ← map_fst_declared, h]
    refine ⟨hidentities, fun i => ?_⟩
    have hmem : i ∈ table.identities t ↔ i ∈ table.identities u := by
      rw [← List.mem_eraseDups, hidentities, List.mem_eraseDups]
    by_cases hi : i ∈ table.identities t
    · rw [declared, declared, hidentities] at h
      have hi' : i ∈ (table.identities u).eraseDups := List.mem_eraseDups.2 (hmem.1 hi)
      exact congrArg Prod.snd (List.map_inj_left.1 h i hi')
    · rw [operandsAt_eq_nil hi, operandsAt_eq_nil (mt hmem.2 hi)]

instance : Decidable (SameOperands table t u) :=
  decidable_of_iff (table.declared t = table.declared u) sameOperands_iff.symm

/-- Stacking keeps the operands of its layers. -/
theorem sameOperands_stack (table : OperatorTable) (layers : List Tree) :
    SameOperands table layers.flatten (table.stack layers) :=
  ⟨by simp, fun i => by simp⟩

/-- Trees with the same operands are reduced alike within every depth. -/
theorem reduceWithin_congr (h : SameOperands table t u) (depth : Nat) :
    table.reduceWithin depth t = table.reduceWithin depth u := by
  cases depth with
  | zero => rfl
  | succ depth =>
    calc
      _ = table.reduceDeclared (table.reduceWithin depth) (table.declared t) :=
        table.reduceLevel_eq _ t
      _ = table.reduceDeclared (table.reduceWithin depth) (table.declared u) := by
        rw [sameOperands_iff.1 h]
      _ = _ := (table.reduceLevel_eq _ u).symm

/-- Trees with the same operands reduce to the same tree, if they reduce at all. -/
theorem reduces_congr (h : SameOperands table t u) (r : Tree) :
    table.Reduces t r ↔ table.Reduces u r := by
  constructor
  · rintro ⟨depth, hr⟩
    exact ⟨depth, (reduceWithin_congr h depth).symm.trans hr⟩
  · rintro ⟨depth, hr⟩
    exact ⟨depth, (reduceWithin_congr h depth).trans hr⟩

/-- Reductions of trees with the same operands agree where both end. -/
theorem reduce_congr (h : SameOperands table t u) {r s : Tree} (hr : table.reduce t = some r)
    (hs : table.reduce u = some s) : r = s :=
  ((reduces_congr h r).1 (reduces_of_reduce hr)).unique (reduces_of_reduce hs)

/-- Reduction sees operands alone: trees with the same operands reduce to the same ordered trees,
and so does a tree that is stacked first. -/
theorem reduction_of_operands (table : OperatorTable) :
    (∀ t u, SameOperands table t u →
        (∀ r, table.Reduces t r ↔ table.Reduces u r) ∧
          ∀ r s, table.reduce t = some r → table.reduce u = some s → r = s) ∧
      ∀ t, (∀ r, table.Reduces t r ↔ table.Reduces (table.stack [t]) r) ∧
        ∀ r s, table.reduce t = some r → table.reduceLayers [t] = some s → r = s := by
  have hsame (t u : Tree) (h : SameOperands table t u) :
      (∀ r, table.Reduces t r ↔ table.Reduces u r) ∧
        ∀ r s, table.reduce t = some r → table.reduce u = some s → r = s :=
    ⟨reduces_congr h, fun _ _ hr hs => reduce_congr h hr hs⟩
  refine ⟨hsame, fun t => hsame t (table.stack [t]) ?_⟩
  have hstack := sameOperands_stack table [t]
  rwa [List.flatten_singleton] at hstack

/-- Operands that are spread over two spellings reduce like one collection. -/
theorem reduction_of_joined_spellings :
    let split : Tree := [("+a", .number (.int 1)), ("a", .number (.int 2)),
      ("#+a", .array [.number (.int 3)])]
    let joined : Tree := [("#+a", .array [.number (.int 1), .number (.int 3)]),
      ("a", .number (.int 2))]
    empty.reduce split = empty.reduce joined ∧ empty.reduce split = empty.reduceLayers [split] ∧
      empty.Reduces joined [("a", .number (.int 6))] := by
  intro split joined
  have hsame : SameOperands empty split joined := by decide +kernel
  have hsplit : empty.reduce split = some [("a", .number (.int 6))] := by decide +kernel
  have hjoined : (empty.reduce joined).isSome = true := by decide +kernel
  have hstacked : (empty.reduceLayers [split]).isSome = true := by decide +kernel
  obtain ⟨r, hr⟩ := Option.isSome_iff_exists.1 hjoined
  obtain ⟨s, hs⟩ := Option.isSome_iff_exists.1 hstacked
  have hpair := (reduction_of_operands empty).1 split joined hsame
  have halone := (reduction_of_operands empty).2 split
  refine ⟨?_, ?_, (hpair.1 _).1 (reduces_of_reduce hsplit)⟩
  · rw [hsplit, hr, hpair.2 _ _ hsplit hr]
  · rw [hsplit, hs, halone.2 _ _ hsplit hs]

end OperatorTable

end Overlay
