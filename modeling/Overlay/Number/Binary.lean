/-!
# Finite floats as binary fractions

Every finite double is an integer times a power of two. The bits are taken apart here once,
for the test of being an integer and for the choice of decimal digits.
-/

namespace Overlay

/-- The number `± mantissa · 2 ^ exponent`. -/
structure Binary where
  negative : Bool
  mantissa : Nat
  exponent : Int
  deriving DecidableEq

namespace Binary

/-- The exponent of the smallest positive float, which is also that of its whole first binade. -/
def leastExponent : Int := -1074

/-- The least mantissa of a normal float, a one with fifty-two bits behind it. -/
def leastNormal : Nat := 4503599627370496

/-- Take a float apart, giving nothing for the infinities and for what is not a number. -/
def ofFloat? (x : Float) : Option Binary :=
  let bits := x.toBits.toNat
  let negative := bits >>> 63 == 1
  let field := (bits >>> 52) % 2048
  let fraction := bits % leastNormal
  if field = 2047 then none
  else if field = 0 then some ⟨negative, fraction, leastExponent⟩
  else some ⟨negative, fraction + leastNormal, (field - 1 : Nat) + leastExponent⟩

/-- The magnitude, if it is an integer. -/
def magnitude? (b : Binary) : Option Nat :=
  if 0 ≤ b.exponent then some (b.mantissa <<< b.exponent.toNat)
  else
    let unit := 1 <<< (-b.exponent).toNat
    if b.mantissa % unit = 0 then some (b.mantissa / unit) else none

/-- The integer that a binary fraction is, if it is one. -/
def toInt? (b : Binary) : Option Int :=
  b.magnitude?.map fun n => if b.negative then -(n : Int) else n

end Binary

end Overlay
