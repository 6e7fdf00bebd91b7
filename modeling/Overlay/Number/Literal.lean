import Overlay.Number.Basic

/-!
# Number literals

Reading follows the number grammar of JSON. A literal without a point and an exponent that fits
64 bits is an integer, and any other literal a float.

The float of a literal is its digits, as many as fit 64 bits, rounded to a float and scaled by a
power of ten. Every step rounds to nearest, so the result may lie a place off the float nearest
to the literal. A literal beyond the range of floats is refused.
-/

namespace Overlay

/-- The parts of a number literal. -/
structure Literal where
  negative : Bool
  whole : List Char
  fraction : Option (List Char)
  exponent : Option (Bool × List Char)

namespace Literal

/-- Split off the digits at the front, of which there must be at least one. -/
def digits? (s : List Char) : Option (List Char × List Char) :=
  match s.takeWhile Char.isDigit with
  | [] => none
  | ds => some (ds, s.dropWhile Char.isDigit)

/-- Read the part before the point: no digit follows a leading zero. -/
def whole? (s : List Char) : Option (List Char × List Char) :=
  match digits? s with
  | some ('0' :: _ :: _, _) => none
  | other => other

/-- Read the part after the point, if there is a point. -/
def fraction? : List Char → Option (Option (List Char) × List Char)
  | '.' :: rest => (digits? rest).map fun (ds, rest) => (some ds, rest)
  | rest => some (none, rest)

/-- Read the sign of an exponent. -/
def exponentSign : List Char → Bool × List Char
  | '-' :: rest => (true, rest)
  | '+' :: rest => (false, rest)
  | rest => (false, rest)

/-- Read the exponent, which must end the literal. -/
def exponent? : List Char → Option (Option (Bool × List Char))
  | [] => some none
  | e :: rest =>
    if e = 'e' ∨ e = 'E' then
      let (negative, rest) := exponentSign rest
      match digits? rest with
      | some (ds, []) => some (some (negative, ds))
      | _ => none
    else none

/-- Read a whole text as a number literal. -/
def ofChars? (s : List Char) : Option Literal := do
  let (negative, s) := match s with
    | '-' :: rest => (true, rest)
    | rest => (false, rest)
  let (whole, s) ← whole? s
  let (fraction, s) ← fraction? s
  let exponent ← exponent? s
  some ⟨negative, whole, fraction, exponent⟩

/-- The greatest integer that fits 64 bits. -/
def greatestSignificand : Nat := 18446744073709551615

/-- Put decimal digits behind a number for as long as the result fits 64 bits, counting the digits
from the first that does not. -/
def gatherDigits (n : Nat) : List Char → Nat × Nat
  | [] => (n, 0)
  | d :: ds =>
    let longer := 10 * n + (d.toNat - '0'.toNat)
    if longer ≤ greatestSignificand then gatherDigits longer ds else (n, ds.length + 1)

/-- The digits of a literal as a number, and the power of ten that the places before and after the
point call for. Of the digits that do not fit, those before the point still count as places. -/
def significand (l : Literal) : Nat × Int :=
  let (whole, dropped) := gatherDigits 0 l.whole
  let places := l.fraction.getD []
  let (digits, unread) := gatherDigits whole places
  (digits, dropped - (places.length - unread : Nat))

/-- The power of ten that an exponent writes. -/
def shift (l : Literal) : Int :=
  match l.exponent with
  | none => 0
  | some (negative, ds) =>
    let magnitude := ds.foldl (fun n d => 10 * n + (d.toNat - '0'.toNat)) 0
    if negative then -(magnitude : Int) else magnitude

/-- The greatest exponent of a power of ten that is a float. -/
def greatestPower : Nat := 308

/-- The float nearest to a power of ten. -/
def powerOfTen (exponent : Nat) : Float := Float.ofScientific 1 false exponent

/-- Scale a float that is a number of at most 64 bits by a power of ten, unless the result lies
beyond all floats. Scaling down beyond the greatest power takes two divisions. -/
def scale? (x : Float) (exponent : Int) : Option Float :=
  if 0 ≤ exponent then
    if exponent ≤ greatestPower then
      let scaled := x * powerOfTen exponent.toNat
      if scaled.isInf then none else some scaled
    else if x == 0.0 then some x
    else none
  else
    let down := exponent.natAbs
    if down ≤ greatestPower then some (x / powerOfTen down)
    else some (x / powerOfTen greatestPower / powerOfTen (min (down - greatestPower) greatestPower))

/-- The float of a literal. -/
def toFloat? (l : Literal) : Option Float :=
  let (digits, exponent) := l.significand
  (scale? (Float.ofNat digits) (exponent + l.shift)).map fun x => if l.negative then -x else x

/-- The integer of a literal that is one. Minus zero is a float, being no integer of its own. -/
def toInt? (l : Literal) : Option Int :=
  match l.fraction, l.exponent, gatherDigits 0 l.whole with
  | none, none, (magnitude, 0) =>
    if !l.negative then some magnitude
    else if 0 < magnitude ∧ magnitude ≤ 9223372036854775808 then some (-magnitude)
    else none
  | _, _, _ => none

/-- The number of a literal. -/
def toNumber? (l : Literal) : Option Number :=
  match l.toInt? with
  | some n => some (.int n)
  | none => l.toFloat?.map .float

end Literal

/-- Read a number literal. -/
def Number.ofChars? (s : List Char) : Option Number := (Literal.ofChars? s).bind Literal.toNumber?

end Overlay
