import Overlay.Reduce

/-!
# The plain part of a tree

The plain part keeps the plain keys only, at every depth outside arrays, and writes each by its
base key. Of several spellings of one base key the last gives the value and the first the place.
-/

namespace Overlay

namespace OperatorTable

mutual

/-- The plain entries of a tree under their base keys. -/
def plainEntries (table : OperatorTable) : List (String × Value) → List (String × Value)
  | [] => []
  | (raw, value) :: rest =>
    let key := Key.parse table raw
    if key.isPlain then (key.base, table.plainValuePart value) :: table.plainEntries rest
    else table.plainEntries rest

/-- The plain part of a value. -/
def plainValuePart (table : OperatorTable) : Value → Value
  | .tree entries => .tree (Tree.ofEntries (table.plainEntries entries))
  | value => value

end

/-- The plain part of a tree. -/
def plainPart (table : OperatorTable) (t : Tree) : Tree := Tree.ofEntries (table.plainEntries t)

/-- The plain part of reduced layers, if the reduction ends. -/
def reduceLayersToPlain (table : OperatorTable) (layers : List Tree) : Option Tree :=
  (table.reduceLayers layers).map table.plainPart

end OperatorTable

end Overlay
