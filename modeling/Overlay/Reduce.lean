import Overlay.Reduce.Level

/-!
# Reduction

Reducing a tree applies every operator in it. Reduced values are merged and reduced again, so
the depth of reductions inside one another is counted; the weight of the tree bounds it as long
as custom operators do not keep building trees for each other, and spare depth is left for
those that build some.
-/

namespace Overlay

namespace OperatorTable

/-- Reduce a tree with at most `depth` reductions inside one another. -/
def reduceWithin (table : OperatorTable) : Nat → Reduction
  | 0, _ => none
  | depth + 1, t => table.reduceLevel (table.reduceWithin depth) t

/-- The depth that is left to custom operators. -/
def spareDepth : Nat := 4294967296

/-- Reduce a tree, if its reduction ends. -/
def reduce (table : OperatorTable) (t : Tree) : Option Tree :=
  table.reduceWithin (t.weight + spareDepth) t

/-- Stack layers, the lowest first, and reduce the result. -/
def reduceLayers (table : OperatorTable) (layers : List Tree) : Option Tree :=
  table.reduce (table.stack layers)

end OperatorTable

end Overlay
