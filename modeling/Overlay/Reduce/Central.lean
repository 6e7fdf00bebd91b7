import Overlay.Operator.Table

/-!
# Applying operators

An operator takes the value so far and its operands to a new value and the operands it leaves.
Operands of the wrong type are passed over. Arithmetic and the joining of arrays fold their
operands into one, which they apply to the value, or leave behind if the value does not suit
them.
-/

namespace Overlay

/-- Assign the last operand. -/
def assignLast (value : Option Value) (operands : Operands) : Option Value × Operands :=
  (operands.getLast?.or value, [])

/-- Fold the operands that are numbers and apply the result to a value that is a number. -/
def calculate (operation : Number → Number → Number) (unit : Number) (value : Option Value)
    (operands : Operands) : Option Value × Operands :=
  match operands.filterMap Value.number? with
  | [] => (value, [])
  | numbers =>
    let operand := numbers.foldl operation unit
    match value.bind Value.number? with
    | some current => (some (operation current operand).toValue, [])
    | none => (value, [operand.toValue])

/-- Join arrays and splice the result into a value that is an array. -/
def spliceArrays (splice : List Value → List Value → List Value) (arrays : List (List Value))
    (value : Option Value) : Option Value × Operands :=
  match arrays, value with
  | [], _ => (value, [])
  | arrays, some (.array items) => (some (.array (splice items arrays.flatten)), [])
  | arrays, value => (value, [.array arrays.flatten])

/-- Add the numbers. -/
def addNumbers : Option Value → Operands → Option Value × Operands :=
  calculate Number.add (.int 0)

/-- Multiply by the numbers. -/
def multiplyNumbers : Option Value → Operands → Option Value × Operands :=
  calculate Number.mul (.int 1)

/-- Put the arrays in front, those of later operands further ahead. -/
def prependArrays (value : Option Value) (operands : Operands) : Option Value × Operands :=
  spliceArrays (fun items joined => joined ++ items) (operands.reverse.filterMap Value.items?)
    value

/-- Put the arrays at the end, those of later operands further behind. -/
def appendArrays (value : Option Value) (operands : Operands) : Option Value × Operands :=
  spliceArrays (fun items joined => items ++ joined) (operands.filterMap Value.items?) value

/-- Apply an operator to the value so far and its operands. Merges are not applied here, and a
name without an operator changes nothing. -/
def OperatorTable.apply (table : OperatorTable) (operator : Operator) (value : Option Value)
    (operands : Operands) : Option Value × Operands :=
  match operator with
  | .assign => assignLast value operands
  | .add => addNumbers value operands
  | .multiply => multiplyNumbers value operands
  | .prepend => prependArrays value operands
  | .append => appendArrays value operands
  | .merge _ _ => (value, operands)
  | .custom name =>
    match table.find? name with
    | some operator => operator.apply value operands
    | none => (value, operands)

end Overlay
