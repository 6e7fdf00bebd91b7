import Overlay.Operator.Basic

/-!
# Keys

A key of a tree is an operator, a base key that says what the operator is for, and whether an
array at the key is spread into several operands. A key may have been written with the escape
that keeps its base key from being read as a marker.
-/

namespace Overlay

/-- An operator at a base key. All keys of one identity have their operands in common. -/
@[ext]
structure Identity where
  operator : Operator
  base : String
  deriving DecidableEq

/-- A key of a tree, taken apart. -/
structure Key where
  operator : Operator
  base : String
  spread : Bool
  literal : Bool
  deriving DecidableEq

/-- Test for a merge with the whole tree, which has no base key. -/
def Identity.isRootMerge (i : Identity) : Bool := i.operator.isMerge && i.base.toList.isEmpty

/-- The key that collects the operands of an identity. -/
def Identity.collection (i : Identity) : Key := ⟨i.operator, i.base, true, false⟩

namespace Key

/-- The plain key of a base key. -/
def plain (base : String) : Key := ⟨.assign, base, false, false⟩

/-- The operator and base key of a key. -/
def identity (k : Key) : Identity := ⟨k.operator, k.base⟩

/-- Test for a key that just assigns a value. -/
def isPlain (k : Key) : Bool := k.operator.isAssign && !k.spread

/-- Test for a merge with the whole tree. -/
def isRootMerge (k : Key) : Bool := k.identity.isRootMerge

end Key

end Overlay
