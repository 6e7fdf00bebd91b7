import Overlay.Number.Binary

/-!
# The shortest decimal of a float

The decimal with the fewest digits that reads back as a given binary fraction: the grids of
multiples of a power of ten are tried from coarse to fine, and on each grid the two neighbours
of the fraction. Of two neighbours that read back the nearer is taken, and the even one of two
equally near.

All comparisons are between natural numbers, so nothing is rounded on the way.
-/

namespace Overlay

/-- The number `coefficient · 10 ^ exponent`. -/
structure Decimal where
  coefficient : Nat
  exponent : Int
  deriving DecidableEq

namespace Binary

/-- A quarter of the fraction's last place and one step of a decimal grid, scaled alike to natural
numbers. -/
def scales (b : Binary) (grid : Int) : Nat × Nat :=
  let binary := b.exponent - 2
  (Nat.pow 10 (-grid).toNat <<< binary.toNat, Nat.pow 10 grid.toNat <<< (-binary).toNat)

/-- The distance to the midpoint below, in quarters; it is halved where a binade begins. -/
def reachBelow (b : Binary) : Nat :=
  if b.mantissa = leastNormal ∧ leastExponent < b.exponent then 1 else 2

/-- The neighbour on a decimal grid that reads back as the fraction, the nearer one of two. -/
def onGrid? (b : Binary) (grid : Int) : Option Nat :=
  let (quarter, step) := b.scales grid
  let exact := 4 * b.mantissa * quarter
  let low := (4 * b.mantissa - b.reachBelow) * quarter
  let high := (4 * b.mantissa + 2) * quarter
  let readsBack (c : Nat) : Bool :=
    if b.mantissa % 2 = 0 then low ≤ c * step ∧ c * step ≤ high
    else low < c * step ∧ c * step < high
  let lower := exact / step
  let upper := lower + 1
  let below := exact - lower * step
  let above := upper * step - exact
  match readsBack lower, readsBack upper with
  | true, true =>
    if below < above then some lower
    else if above < below then some upper
    else if lower % 2 = 0 then some lower else some upper
  | true, false => some lower
  | false, true => some upper
  | false, false => none

/-- Try the grids from `10 ^ grid` downwards, `count` of them. -/
def searchGrids (b : Binary) : Nat → Int → Option Decimal
  | 0, _ => none
  | count + 1, grid =>
    match b.onGrid? grid with
    | some c => some ⟨c, grid⟩
    | none => b.searchGrids count (grid - 1)

/-- A grid so coarse that its first step lies beyond the fraction. -/
def coarsestGrid (b : Binary) : Int :=
  (b.mantissa.log2 + b.exponent + 1) * 30103 / 100000 + 2

/-- The shortest decimal that reads back. Seventeen digits are always enough, so the search finds
one. -/
def shortest (b : Binary) : Decimal :=
  (b.searchGrids 24 b.coarsestGrid).getD ⟨0, 0⟩

end Binary

end Overlay
