import Overlay.Key.Basic
import Overlay.Operator.Table

/-!
# Reading keys

A key is read from its front: a hash, then a marker, then the base key. The escape `()` ends the
markers. Reading never fails, since what fits no marker is the base key of a plain key; the names
of custom operators are markers only while the table has them.
-/

namespace Overlay

/-- The levels that markers can write, greater counts being cut down to the greatest level. -/
def levelOfCount (count : Nat) : UInt32 := UInt32.ofNat (min count (UInt32.size - 1))

/-- A marker and what follows it. -/
structure Marker where
  operator : Operator
  spread : Bool
  rest : List Char

namespace Marker

/-- A marker without a hash of its own. -/
def simple (operator : Operator) (rest : List Char) : Marker := ⟨operator, false, rest⟩

@[simp] theorem operator_simple (operator : Operator) (rest : List Char) :
    (simple operator rest).operator = operator := rfl

@[simp] theorem spread_simple (operator : Operator) (rest : List Char) :
    (simple operator rest).spread = false := rfl

@[simp] theorem rest_simple (operator : Operator) (rest : List Char) :
    (simple operator rest).rest = rest := rfl

/-- The number of times a character stands at the front, and what follows. -/
def run (c : Char) (s : List Char) : Nat × List Char :=
  ((s.takeWhile (· == c)).length, s.dropWhile (· == c))

/-- Read a marker that starts with `<`: a merge below the value, or a prepend. -/
def below? (body : List Char) : Option Marker :=
  match run '<' body with
  | (count, '*' :: rest) => some (simple (.merge .below (levelOfCount count)) rest)
  | (1, '+' :: rest) => some (simple .prepend rest)
  | _ => none

/-- Read on after a star: a merge above the value, or a product. -/
def afterStar (s : List Char) : Marker :=
  match run '>' s with
  | (0, _) => simple .multiply s
  | (count, rest) => simple (.merge .above (levelOfCount count)) rest

/-- Read on after a plus sign: an append, or a sum. -/
def afterPlus : List Char → Marker
  | '>' :: rest => simple .append rest
  | rest => simple .add rest

/-- Read on after an opening parenthesis: the name of a custom operator, with or without a
hash. -/
def custom? (table : OperatorTable) (s : List Char) : Option Marker :=
  match s.dropWhile (· != ')') with
  | [] => none
  | _ :: rest =>
    let (spread, name) := match s.takeWhile (· != ')') with
      | '#' :: name => (true, String.ofList name)
      | name => (false, String.ofList name)
    if table.contains name then some ⟨.custom name, spread, rest⟩ else none

/-- Read the marker at the front of a text. -/
def ofChars? (table : OperatorTable) : List Char → Option Marker
  | '<' :: rest => below? ('<' :: rest)
  | '*' :: rest => some (afterStar rest)
  | '+' :: rest => some (afterPlus rest)
  | '(' :: rest => custom? table rest
  | _ => none

end Marker

namespace Key

/-- Read a key behind its hash, if it has one. -/
def ofBody (table : OperatorTable) (spread : Bool) (body : List Char) : Key :=
  match body with
  | '(' :: ')' :: rest => ⟨.assign, String.ofList rest, spread, true⟩
  | body =>
    match Marker.ofChars? table body with
    | some m => ⟨m.operator, String.ofList m.rest, spread || m.spread, false⟩
    | none => ⟨.assign, String.ofList body, spread, false⟩

/-- Read the characters of a key. -/
def ofChars (table : OperatorTable) : List Char → Key
  | '#' :: body => ofBody table true body
  | body => ofBody table false body

/-- Read a key. -/
def parse (table : OperatorTable) (raw : String) : Key := ofChars table raw.toList

end Key

end Overlay
