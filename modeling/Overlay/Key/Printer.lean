import Overlay.Key.Parser

/-!
# Writing keys

The canonical text of a key: a hash if its array is spread, the marker of its operator, and the
base key. A plain key is written with the escape only when its bare text would be read as
another key.
-/

namespace Overlay

/-- The marker of an operator; plain keys have none, and custom operators stand in
parentheses. -/
def Operator.marker : Operator → List Char
  | assign => []
  | add => ['+']
  | multiply => ['*']
  | prepend => ['<', '+']
  | append => ['+', '>']
  | merge .below level => List.replicate level.toNat '<' ++ ['*']
  | merge .above level => '*' :: List.replicate level.toNat '>'
  | custom name => '(' :: name.toList ++ [')']

namespace Key

/-- The hash in front of a key whose array is spread. -/
def hash (k : Key) : List Char := if k.spread then ['#'] else []

/-- Test whether two keys have the same operator, base key and spread, however written. -/
def agrees (k l : Key) : Bool :=
  k.operator == l.operator && k.base == l.base && k.spread == l.spread

/-- Keys agree when they differ at most in their spelling. -/
theorem agrees_iff {k l : Key} :
    k.agrees l = true ↔ k.operator = l.operator ∧ k.base = l.base ∧ k.spread = l.spread := by
  simp [agrees, and_assoc]

/-- The characters of the canonical text. The hash of a custom operator stands in front of the
name. -/
def toChars (table : OperatorTable) (k : Key) : List Char :=
  match k.operator with
  | .assign =>
    let bare := k.hash ++ k.base.toList
    if (ofChars table bare).agrees k then bare else k.hash ++ '(' :: ')' :: k.base.toList
  | .custom name => '(' :: k.hash ++ name.toList ++ ')' :: k.base.toList
  | operator => k.hash ++ operator.marker ++ k.base.toList

/-- Write a key. -/
def encode (table : OperatorTable) (k : Key) : String := String.ofList (k.toChars table)

/-- Write a key as it stands without custom operators. -/
def text (k : Key) : String := k.encode .empty

end Key

end Overlay
