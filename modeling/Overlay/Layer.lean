import Overlay.Error

/-!
# Layers

A layer is a tree with an optional label, which errors name it by. Any value can be offered as a
layer, and is refused if it is no tree.
-/

namespace Overlay

/-- A tree to be laid over others. -/
structure Layer where
  label : Option String
  tree : Tree

namespace Layer

/-- The layer that a value makes under a label. -/
def ofValue (label : String) (value : Value) : Except Error Layer :=
  match value with
  | .tree t => .ok ⟨some label, t⟩
  | value => .error (.notATree label value.kind)

/-- Test whether two layers have the same label and hold the same data. -/
def same (a b : Layer) : Bool :=
  a.label == b.label && (Value.tree a.tree).same (.tree b.tree)

end Layer

/-- The trees of values, or the errors of all values that are none, labelled by position. -/
def treesOf (values : List Value) : Except Error (List Tree) :=
  Error.guard
    (values.zipIdx.filterMap fun (value, position) =>
      match value with
      | .tree _ => none
      | value => some (.notATree (toString position) value.kind))
    (values.filterMap Value.tree?)

end Overlay
