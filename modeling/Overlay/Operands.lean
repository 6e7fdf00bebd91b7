import Overlay.Value

/-!
# Operands

The values that keys give to an operator, in order. An array counts as one operand, unless its
key says that it is to be spread.
-/

namespace Overlay

/-- The operands of an operator, in order. -/
abbrev Operands := List Value

namespace Operands

/-- The operands that a key gives: the items of an array that is spread, or else the value. -/
def ofValue (spread : Bool) (value : Value) : Operands :=
  match spread, value with
  | true, .array items => items
  | _, value => [value]

/-- Put one more operand at the end. -/
def push (operands : Operands) (operand : Value) : Operands := operands ++ [operand]

/-- The value that holds operands under one key, if there are any, and whether it has to be
spread. -/
def toValue? : Operands → Option (Bool × Value)
  | [] => none
  | [operand] => some (false, operand)
  | operands => some (true, .array operands)

/-- Only where there are no operands no value holds them. -/
theorem toValue?_eq_none_iff {operands : Operands} : operands.toValue? = none ↔ operands = [] := by
  rcases operands with _ | ⟨a, _ | ⟨b, rest⟩⟩ <;> simp [toValue?]

/-- Operands come back from the value that holds them. -/
theorem ofValue_toValue? {operands : Operands} {spread : Bool} {value : Value}
    (h : operands.toValue? = some (spread, value)) : ofValue spread value = operands := by
  rcases operands with _ | ⟨a, _ | ⟨b, rest⟩⟩
  · simp [toValue?] at h
  · obtain ⟨rfl, rfl⟩ : false = spread ∧ a = value := by simpa [toValue?] using h
    rfl
  · obtain ⟨rfl, rfl⟩ : true = spread ∧ Value.array (a :: b :: rest) = value := by
      simpa [toValue?] using h
    rfl

end Operands

end Overlay
