import Overlay.Composition
import Overlay.Proofs.Reduce.Termination

/-!
# What a composition takes

A composition is given layers, trees and values in any mixture. Each of them is either accepted as a layer
or refused with an error, so layers and errors together count all that came before, and the label of a value
without one is its position. Nothing gets lost: the layers and the errors stand in the order in which they
came, and the result is made from all layers or reports all errors.
-/

namespace Overlay

/-- A result that gives a value if there are no errors, and reports the errors if there are any. -/
inductive Error.Guards {α : Type} (errors : List Error) (value : α) : Except Error α → Prop
  | ok (h : errors = []) : Guards errors value (.ok value)
  | error {e : Error} (h : Reports errors e) : Guards errors value (.error e)

namespace Error

variable {α β : Type} {errors : List Error}

/-- A value that is guarded by errors is given unless there are any. -/
theorem guards_guard (errors : List Error) (value : α) :
    Guards errors value (guard errors value) := by
  unfold guard
  split
  · next h => exact .ok (collect?_eq_none_iff.1 h)
  · next e h => exact .error (reports_of_collect? h)

/-- What is made of a guarded value is guarded by the same errors. -/
theorem guard_map (errors : List Error) (value : α) (f : α → β) :
    (guard errors value).map f = guard errors (f value) := by
  unfold guard
  split <;> rfl

end Error

/-- Something that is given to a composition. -/
inductive Push where
  | layer (layer : Layer)
  | tree (t : Tree)
  | value (value : Value)
  | labelled (label : String) (value : Value)

namespace Push

/-- The tree that is laid over the others, if it is one. -/
def tree? : Push → Option Tree
  | layer l => some l.tree
  | tree t => some t
  | value v => v.tree?
  | labelled _ v => v.tree?

/-- The layer that is accepted at a position, if what is given there is a tree. -/
def accepted? (position : Nat) : Push → Option Layer
  | layer l => some l
  | tree t => some ⟨none, t⟩
  | value v => v.tree?.map fun t => ⟨some (toString position), t⟩
  | labelled label v => v.tree?.map fun t => ⟨some label, t⟩

/-- The error of what is refused at a position, if it is no tree. -/
def refused? (position : Nat) : Push → Option Error
  | layer _ | tree _ => none
  | value v => if v.tree?.isSome then none else some (.notATree (toString position) v.kind)
  | labelled label v => if v.tree?.isSome then none else some (.notATree label v.kind)

/-- The tree of the layer that is accepted does not depend on the position. -/
theorem map_tree_accepted? (position : Nat) (p : Push) :
    (p.accepted? position).map Layer.tree = p.tree? := by
  cases p with
  | value v | labelled label v => cases v <;> rfl
  | _ => rfl

end Push

namespace Composition

/-- The composition after one more push. -/
def push (c : Composition) : Push → Composition
  | .layer l => c.add l
  | .tree t => c.addTree t
  | .value v => c.offer v
  | .labelled label v => c.offerAs label v

/-- The composition of what is pushed, one after the other. -/
def ofPushes (pushes : List Push) : Composition := pushes.foldl push empty

variable {c : Composition}

section Step

/-- A value with a label adds a layer or an error. -/
theorem offerAs_eq (c : Composition) (label : String) (v : Value) :
    c.offerAs label v =
      ⟨c.layers ++ (v.tree?.map fun t => ⟨some label, t⟩).toList,
        c.errors ++ (if v.tree?.isSome then none else some (Error.notATree label v.kind)).toList⟩ := by
  cases v <;> simp [offerAs, Layer.ofValue, Value.tree?, add]

/-- Each push adds a layer or an error, by its position among all that came before. -/
theorem push_eq (c : Composition) (p : Push) :
    c.push p = ⟨c.layers ++ (p.accepted? c.size).toList, c.errors ++ (p.refused? c.size).toList⟩ := by
  cases p with
  | layer l => simp [push, add, Push.accepted?, Push.refused?]
  | tree t => simp [push, addTree, add, Push.accepted?, Push.refused?]
  | value v => exact c.offerAs_eq (toString c.size) v
  | labelled label v => exact c.offerAs_eq label v

/-- A push is either accepted or refused, so the size of a composition counts the pushes. -/
@[simp] theorem size_push (c : Composition) (p : Push) : (c.push p).size = c.size + 1 := by
  have hone : (p.accepted? c.size).toList.length + (p.refused? c.size).toList.length = 1 := by
    cases p with
    | value v | labelled label v => cases v <;> rfl
    | _ => rfl
  rw [push_eq, size]
  simp only [List.length_append]
  change _ = c.layers.length + c.errors.length + 1
  omega

end Step

section Run

/-- Pushes add what is accepted to the layers and what is refused to the errors, each by its position. -/
theorem foldl_push_eq (c : Composition) (pushes : List Push) :
    pushes.foldl push c =
      ⟨c.layers ++ (pushes.zipIdx c.size).filterMap fun p => p.1.accepted? p.2,
        c.errors ++ (pushes.zipIdx c.size).filterMap fun p => p.1.refused? p.2⟩ := by
  induction pushes generalizing c with
  | nil => simp
  | cons p rest ih =>
    rw [List.foldl_cons, ih, size_push, push_eq, List.zipIdx_cons]
    cases haccepted : p.accepted? c.size <;> cases hrefused : p.refused? c.size <;>
      simp [haccepted, hrefused]

/-- The layers of a composition are what was accepted, and the errors what was refused. -/
theorem ofPushes_eq (pushes : List Push) :
    ofPushes pushes =
      ⟨pushes.zipIdx.filterMap fun p => p.1.accepted? p.2,
        pushes.zipIdx.filterMap fun p => p.1.refused? p.2⟩ :=
  foldl_push_eq empty pushes

/-- The layers have the trees that were pushed, in order. -/
theorem map_tree_layers (pushes : List Push) :
    (ofPushes pushes).layers.map Layer.tree = pushes.filterMap Push.tree? := by
  rw [ofPushes_eq, List.map_filterMap]
  simp only [Push.map_tree_accepted?]
  conv_rhs => rw [← List.zipIdx_map_fst 0 pushes, List.filterMap_map]
  rfl

/-- The result is made from the trees that were pushed, unless something was refused. -/
theorem trees_ofPushes (pushes : List Push) :
    (ofPushes pushes).trees =
      Error.guard (ofPushes pushes).errors (pushes.filterMap Push.tree?) := by
  rw [trees, result, Error.guard_map, map_tree_layers]

/-- Values that are pushed one by one come to the trees or the errors of the list of values. -/
theorem trees_ofPushes_values (values : List Value) :
    (ofPushes (values.map Push.value)).trees = treesOf values := by
  have htrees : (values.map Push.value).filterMap Push.tree? = values.filterMap Value.tree? :=
    List.filterMap_map
  have herrors : (ofPushes (values.map Push.value)).errors =
      values.zipIdx.filterMap fun p => (Push.value p.1).refused? p.2 := by
    simp only [ofPushes_eq]
    rw [List.zipIdx_map, List.filterMap_map]
    rfl
  rw [trees_ofPushes, htrees, herrors, treesOf]
  refine congrArg (Error.guard · _) (List.filterMap_congr fun p _ => ?_)
  obtain ⟨v, position⟩ := p
  cases v <;> rfl

end Run

/-- Nothing that is pushed gets lost: the layers are the trees among the pushes and the errors are those of
all other pushes, in order, with the position of a push as the label of a value without one. Stacking and
reduction take all trees, unless there are errors, which are all reported then; without custom operators the
reduction of the trees gives a tree. Pushing values one by one comes to the same as giving them all at
once. -/
theorem pushes_are_kept_or_reported (table : OperatorTable) (pushes : List Push) :
    let c := ofPushes pushes
    let trees := pushes.filterMap Push.tree?
    c.layers = (pushes.zipIdx.filterMap fun p => p.1.accepted? p.2) ∧
      c.errors = (pushes.zipIdx.filterMap fun p => p.1.refused? p.2) ∧
      c.layers.map Layer.tree = trees ∧
      Error.Guards c.errors (table.stack trees) (c.stack table) ∧
      Error.Guards c.errors (table.reduceLayers trees) (c.reduce table) ∧
      Error.Guards c.errors (table.reduceLayersToPlain trees) (c.reduceToPlain table) ∧
      (∃ r, Error.Guards c.errors (some r) (c.reduce .empty) ∧
        Error.Guards c.errors (some (OperatorTable.empty.plainPart r)) (c.reduceToPlain .empty)) ∧
      ∀ values : List Value,
        (ofPushes (values.map Push.value)).stack table = table.stackChecked values ∧
          (ofPushes (values.map Push.value)).reduce table = table.reduceChecked values := by
  intro c trees
  have hguards {α : Type} (f : List Tree → α) : Error.Guards c.errors (f trees) (c.trees.map f) := by
    rw [trees_ofPushes, Error.guard_map]
    exact Error.guards_guard c.errors (f trees)
  obtain ⟨r, hr, -⟩ := OperatorTable.exists_reduce (OperatorTable.empty.stack trees)
  have hplain : OperatorTable.empty.reduceLayersToPlain trees =
      some (OperatorTable.empty.plainPart r) := congrArg (Option.map _) hr
  refine ⟨congrArg Composition.layers (ofPushes_eq pushes),
    congrArg Composition.errors (ofPushes_eq pushes), map_tree_layers pushes, hguards _, hguards _,
    hguards _, ⟨r, ?_, ?_⟩, fun values => ?_⟩
  · exact hr ▸ hguards OperatorTable.empty.reduceLayers
  · exact hplain ▸ hguards OperatorTable.empty.reduceLayersToPlain
  · rw [stack, reduce, trees_ofPushes_values]
    exact ⟨rfl, rfl⟩

end Composition

end Overlay
