import Overlay.Layer
import Overlay.Plain

/-!
# Composing layers

A composition takes layers one by one. A value that is offered and is no tree is recorded as an
error and does not stop the composition; its result is refused with all errors together.

A value that is offered without a label is labelled by its position among everything that came
before it, refused values included.
-/

namespace Overlay

/-- The layers accepted so far and the errors of those refused, in order. -/
structure Composition where
  layers : List Layer
  errors : List Error

namespace Composition

/-- The composition of nothing. -/
def empty : Composition := ⟨[], []⟩

/-- The number of layers and refused values so far. -/
def size (c : Composition) : Nat := c.layers.length + c.errors.length

/-- Add a layer. -/
def add (c : Composition) (layer : Layer) : Composition :=
  { c with layers := c.layers ++ [layer] }

/-- Add a tree without a label. -/
def addTree (c : Composition) (t : Tree) : Composition := c.add ⟨none, t⟩

/-- Offer a value as a layer with a label, recording an error if it is no tree. -/
def offerAs (c : Composition) (label : String) (value : Value) : Composition :=
  match Layer.ofValue label value with
  | .ok layer => c.add layer
  | .error e => { c with errors := c.errors ++ [e] }

/-- Offer a value as a layer labelled by its position. -/
def offer (c : Composition) (value : Value) : Composition :=
  c.offerAs (toString c.size) value

/-- The layers, or the errors if there are any. -/
def result (c : Composition) : Except Error (List Layer) := Error.guard c.errors c.layers

/-- The trees of the layers, or the errors if there are any. -/
def trees (c : Composition) : Except Error (List Tree) :=
  c.result.map fun layers => layers.map Layer.tree

/-- Stack the layers. -/
def stack (c : Composition) (table : OperatorTable) : Except Error Tree :=
  c.trees.map table.stack

/-- Stack and reduce the layers, if the reduction ends. -/
def reduce (c : Composition) (table : OperatorTable) : Except Error (Option Tree) :=
  c.trees.map table.reduceLayers

/-- The plain part of the reduced layers, if the reduction ends. -/
def reduceToPlain (c : Composition) (table : OperatorTable) : Except Error (Option Tree) :=
  c.trees.map table.reduceLayersToPlain

end Composition

namespace OperatorTable

/-- Stack values, all of which have to be trees. -/
def stackChecked (table : OperatorTable) (values : List Value) : Except Error Tree :=
  (treesOf values).map table.stack

/-- Stack and reduce values, all of which have to be trees. -/
def reduceChecked (table : OperatorTable) (values : List Value) : Except Error (Option Tree) :=
  (treesOf values).map table.reduceLayers

end OperatorTable

end Overlay
