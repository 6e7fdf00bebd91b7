import Overlay.Json.Token
import Overlay.Value

/-!
# Reading JSON

A value is read one token at a time, with a stack of the arrays and trees that are still open.
A key written twice in a tree keeps its first place and takes its last value. Nesting is limited,
and whatever follows the value is refused.
-/

namespace Overlay.Json

/-- An array or tree that is being read; items are kept newest first. -/
inductive Frame where
  | array (read : List Value)
  | tree (read : Tree) (key : String)

/-- What may come next, inside the given open arrays and trees. -/
inductive Reading where
  | value (stack : List Frame)
  | firstItem (stack : List Frame)
  | firstKey (stack : List Frame)
  | key (read : Tree) (stack : List Frame)
  | colon (read : Tree) (key : String) (stack : List Frame)
  | finished (v : Value) (stack : List Frame)

namespace Reading

/-- Read the token that starts a value. -/
def startValue (depth : Nat) (stack : List Frame) : Token → Option Reading
  | .null => some (finished .null stack)
  | .bool b => some (finished (.bool b) stack)
  | .number n => some (finished (.number n) stack)
  | .string s => some (finished (.string s) stack)
  | .mark .openArray => if stack.length < depth then some (firstItem stack) else none
  | .mark .openTree => if stack.length < depth then some (firstKey stack) else none
  | .mark _ => none

/-- Read the token after a finished value. -/
def afterValue (v : Value) : List Frame → Token → Option Reading
  | .array read :: stack, .mark .comma => some (value (.array (v :: read) :: stack))
  | .array read :: stack, .mark .closeArray =>
    some (finished (.array (v :: read).reverse) stack)
  | .tree read k :: stack, .mark .comma => some (key (read.insert k v) stack)
  | .tree read k :: stack, .mark .closeTree => some (finished (.tree (read.insert k v)) stack)
  | _, _ => none

/-- Read one token, with at most `depth` arrays and trees open. -/
def step (depth : Nat) : Reading → Token → Option Reading
  | value stack, t => startValue depth stack t
  | firstItem stack, .mark .closeArray => some (finished (.array []) stack)
  | firstItem stack, t => startValue depth (.array [] :: stack) t
  | firstKey stack, .mark .closeTree => some (finished (.tree []) stack)
  | firstKey stack, .string k => some (colon [] k stack)
  | firstKey _, _ => none
  | key read stack, .string k => some (colon read k stack)
  | key _ _, _ => none
  | colon read k stack, .mark .colon => some (value (.tree read k :: stack))
  | colon _ _ _, _ => none
  | finished v stack, t => afterValue v stack t

end Reading

/-- How many arrays and trees may be open at once in a text. -/
def greatestDepth : Nat := 127

/-- Read a text as one value, with at most `depth` arrays and trees open at once. -/
def readWithin? (depth : Nat) (s : List Char) : Option Value := do
  match ← (← tokens? s).foldlM (Reading.step depth) (.value []) with
  | .finished v [] => some v
  | _ => none

/-- Read a text as one value. -/
def read? (s : List Char) : Option Value := readWithin? greatestDepth s

end Overlay.Json
