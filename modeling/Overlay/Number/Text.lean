import Overlay.Number.Basic
import Overlay.Number.Shortest

/-!
# The text of numbers

Integers are written in decimal and floats by their shortest digits, always with a point or an
exponent.
-/

namespace Overlay

/-- How floats are laid out: where the decimal point may stand before an exponent is written
instead, counted in digits from the first one, and the sign of an exponent that is not negative. -/
structure FloatLayout where
  leastPoint : Int
  greatestPoint : Int
  positiveSign : String

namespace Number

/-- Up to four zeros follow the point, up to sixteen digits precede it, and an exponent always has
a sign. -/
def floatLayout : FloatLayout := ⟨-4, 16, "+"⟩

/-- Write an exponent with its sign and no more digits than it has. -/
def exponentText (exponent : Int) : String :=
  (if exponent < 0 then "-" else floatLayout.positiveSign) ++ toString exponent.natAbs

/-- Write a positive decimal. `point` counts the digits before the decimal point. -/
def decimalText (d : Decimal) : String :=
  let digits := Nat.toDigits 10 d.coefficient
  let point := digits.length + d.exponent
  let zeros (n : Int) : List Char := List.replicate n.toNat '0'
  if point < floatLayout.leastPoint ∨ floatLayout.greatestPoint < point then
    let tail := digits.drop 1
    String.ofList (digits.take 1 ++ (if tail.isEmpty then [] else '.' :: tail) ++ ['e'])
      ++ exponentText (point - 1)
  else if 0 ≤ d.exponent then String.ofList (digits ++ zeros d.exponent ++ ['.', '0'])
  else if 0 < point then
    String.ofList (digits.take point.toNat ++ '.' :: digits.drop point.toNat)
  else String.ofList ('0' :: '.' :: zeros (-point) ++ digits)

/-- Write a float; what is not finite has no number text. -/
def floatText (x : Float) : String :=
  match Binary.ofFloat? x with
  | none => "null"
  | some b =>
    (if b.negative then "-" else "") ++ if b.mantissa = 0 then "0.0" else decimalText b.shortest

/-- Write a number. -/
def text : Number → String
  | int n => toString n
  | float x => floatText x

end Number

end Overlay
