import Overlay.Reduce.Central
import Overlay.Reduce.Declaration
import Overlay.Reduce.Order
import Overlay.Stack

/-!
# Reducing one level

A level is reduced base key by base key. The last plain operand is the value to begin with; the
merges below it come next, from the value outwards, and then all other operators in the order of
application. Operands that an operator leaves stay beside the value, under the operator's key.
Merges with the whole tree come last.

Inner trees are reduced by a function that is given, and that may have no answer.
-/

namespace Overlay

/-- A reduction of trees, which may give up. -/
abbrev Reduction := Tree → Option Tree

/-- Reduce a value that is a tree; other values are reduced already. -/
def Value.reduceWith (inner : Reduction) : Value → Option Value
  | .tree t => (inner t).map .tree
  | value => some value

/-- Reduce a value that may be absent. -/
def reducePresent (inner : Reduction) : Option Value → Option (Option Value)
  | none => some none
  | some value => (value.reduceWith inner).map some

/-- A tree and a patch as layers, the lowest first. -/
def Side.layers (side : Side) (tree patch : Tree) : List Tree :=
  match side with
  | below => [patch, tree]
  | above => [tree, patch]

/-- The value so far, and the operators applied so far with what is left of their operands. A
settled value holds no operators that are still to be applied. -/
structure Progress where
  value : Option Value
  settled : Bool
  residue : List Application

/-- The value of a progress with its operators applied. -/
def Progress.settle (inner : Reduction) (p : Progress) : Option (Option Value) :=
  if p.settled then some p.value else reducePresent inner p.value

namespace OperatorTable

variable (table : OperatorTable) (inner : Reduction)

/-- Merge a tree with a patch and reduce the result. -/
def mergeTrees (side : Side) (tree patch : Tree) : Option Tree :=
  inner (table.merge (side.layers tree patch))

/-- Merge a patch with the value so far. Two trees are merged; otherwise the upper one of the
value and the patch prevails. -/
def mergePatch (side : Side) (value : Option Value) (patch : Value) : Option Value :=
  match value, patch, side with
  | some (.tree tree), .tree patch, side => (table.mergeTrees inner side tree patch).map .tree
  | some value, _, .below => some value
  | some _, patch, .above => patch.reduceWith inner
  | none, patch, _ => patch.reduceWith inner

/-- Merge all operands of a merge with the value so far, in order. -/
def mergeOperands (value : Option Value) (a : Application) : Option (Option Value) :=
  match a.operator with
  | .merge side _ =>
    a.operands.foldlM (fun value patch => (table.mergePatch inner side value patch).map some) value
  | _ => some value

/-- Apply one operator. A merge needs a settled value and leaves it settled; any other operator
may leave a tree that is still to be reduced. -/
def advance (p : Progress) (a : Application) : Option Progress :=
  if a.operator.isMerge then do
    let value ← table.mergeOperands inner (← p.settle inner) a
    some ⟨value, true, p.residue⟩
  else
    let (value, left) := table.apply a.operator p.value a.operands
    some ⟨value, false, p.residue ++ [⟨a.operator, left, a.position⟩]⟩

/-- The value that the plain key assigns, if there is a plain key. -/
def assignedValue (applications : List Application) : Option Value :=
  match applications.find? fun a => a.operator.isAssign with
  | some a => (table.apply a.operator none a.operands).1
  | none => none

/-- Apply all operators at one base key, giving the value and the operators with what is left of
their operands. -/
def applyAll (applications : List Application) : Option (Option Value × List Application) := do
  let start ← reducePresent inner (table.assignedValue applications)
  let below := applications.filter fun a => a.operator.isMergeBelow
  let value ← (outwards below).foldlM (table.mergeOperands inner) start
  let others := applications.filter fun a => !a.operator.isAssign && !a.operator.isMergeBelow
  let p ← (table.inOrder others).foldlM (table.advance inner) ⟨value, true, []⟩
  some (← p.settle inner, p.residue)

/-- The entry that keeps the operands left by an operator, if there are any. -/
def residueEntry? (base : String) (a : Application) : Option (String × Value) :=
  a.operands.toValue?.map fun (spread, value) =>
    (Key.encode table ⟨a.operator, base, spread, false⟩, value)

/-- Reduce one base key to its entries: the value, and what is left beside it. -/
def reduceBase (base : String) (applications : List Application) :
    Option (List (String × Value)) := do
  let (value, residue) ← table.applyAll inner applications
  let plain := value.toList.map fun value => ((Key.plain base).encode table, value)
  some (plain ++ residue.filterMap (table.residueEntry? base))

/-- Merge one patch with the whole tree; a patch that is no tree is passed over. -/
def mergeRootPatch (side : Side) (tree : Tree) (patch : Value) : Option Tree :=
  match patch with
  | .tree patch => table.mergeTrees inner side tree patch
  | _ => some tree

/-- Merge all operands of a merge with the whole tree, in order. -/
def mergeRootOperands (tree : Tree) (a : Application) : Option Tree :=
  match a.operator with
  | .merge side _ => a.operands.foldlM (table.mergeRootPatch inner side) tree
  | _ => some tree

end OperatorTable

/-- Reduce the top level of a tree: every base key, and then the merges with the whole tree. -/
def OperatorTable.reduceLevel (table : OperatorTable) (inner : Reduction) (t : Tree) :
    Option Tree := do
  let level := Level.ofTree table t
  let reduced ← level.targets.mapM fun target =>
    table.reduceBase inner target.base target.applications
  (outwards level.rootMerges).foldlM (table.mergeRootOperands inner)
    (Tree.ofEntries reduced.flatten)

end Overlay
