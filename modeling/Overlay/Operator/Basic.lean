/-!
# Operators

The marker of a key says what is done with the key's operands: assign the last one, calculate
with numbers, join arrays, merge trees below or above the value, or apply a custom operator.
-/

namespace Overlay

/-- The side of a value on which a tree is merged with it. -/
inductive Side where
  | below
  | above
  deriving DecidableEq

/-- What is done with the operands of a key. Merges are numbered outwards from the value. -/
inductive Operator where
  | assign
  | add
  | multiply
  | prepend
  | append
  | merge (side : Side) (level : UInt32)
  | custom (name : String)
  deriving DecidableEq

namespace Operator

/-- Test for the plain operator. -/
def isAssign : Operator → Bool
  | assign => true
  | _ => false

/-- Test for a merge on either side. -/
def isMerge : Operator → Bool
  | merge _ _ => true
  | _ => false

/-- Test for a merge below the value. -/
def isMergeBelow : Operator → Bool
  | merge .below _ => true
  | _ => false

/-- Test for the operators at the centre: arithmetic and the joining of arrays. -/
def isCentral : Operator → Bool
  | add | multiply | prepend | append => true
  | _ => false

/-- The order of the central operators among themselves: products come before sums, and
arithmetic before arrays. -/
def centralRank : Operator → Nat
  | multiply => 1
  | add => 2
  | prepend => 3
  | append => 4
  | _ => 0

end Operator

end Overlay
