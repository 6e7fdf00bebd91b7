import Overlay.Contribution
import Overlay.FirstSeen
import Overlay.Reduce.Order

/-!
# The declarations of a level

The keys of a tree declare operators at base keys. Every further spelling of an operator at a
base key adds to its operands, and its position stays that of the first. Merges with the whole
tree are declared apart from the base keys.
-/

namespace Overlay

/-- A base key with the operators that are declared there. -/
structure Target where
  base : String
  applications : List Application

/-- What the keys of a tree declare: the operators at each base key, and the merges with the whole
tree. -/
structure Level where
  targets : List Target
  rootMerges : List Application

/-- Declare an operator, whose operands join those that it has already. -/
def declareOperator (operator : Operator) (operands : Operands) (position : Nat) :
    List Application → List Application :=
  amend (fun a => a.operator == operator) (fun a => { a with operands := a.operands ++ operands })
    ⟨operator, operands, position⟩

/-- Declare the operator of a contribution at a position. -/
def Contribution.declare (c : Contribution) (position : Nat) :
    List Application → List Application :=
  declareOperator c.key.operator c.operands position

/-- Declare the operator of a contribution at its base key. -/
def Contribution.declareAtBase (c : Contribution) (position : Nat) : List Target → List Target :=
  amend (fun t => t.base == c.key.base)
    (fun t => { t with applications := c.declare position t.applications })
    ⟨c.key.base, c.declare position []⟩

namespace Level

/-- The level at which nothing is declared. -/
def empty : Level := ⟨[], []⟩

/-- Declare a contribution, either at its base key or as a merge with the whole tree. -/
def declare (level : Level) (c : Contribution) (position : Nat) : Level :=
  if c.key.isRootMerge then { level with rootMerges := c.declare position level.rootMerges }
  else { level with targets := c.declareAtBase position level.targets }

/-- Declare contributions one after the other, each at its position. -/
def declareAll (cs : List (Contribution × Nat)) : Level :=
  cs.foldl (fun level c => level.declare c.1 c.2) empty

/-- The declarations of a tree, each at the position of its key. -/
def ofTree (table : OperatorTable) (t : Tree) : Level :=
  declareAll (t.map (Contribution.ofEntry table)).zipIdx

end Level

end Overlay
