/-!
# Numbers

A number is an exact integer or a double-precision float. Sums and products stay exact while
every integer involved fits a signed 64-bit word, and are taken on floats otherwise.

Equality of numbers is equality of data: an integer never equals a float, and floats are
compared as IEEE 754 compares them.
-/

namespace Overlay

/-- A number of a tree: an exact integer or a double-precision float. -/
inductive Number where
  | int (n : Int)
  | float (x : Float)
  deriving DecidableEq, Inhabited

/-- The integers of a signed 64-bit word. -/
abbrev IsWord (n : Int) : Prop := -9223372036854775808 ≤ n ∧ n ≤ 9223372036854775807

namespace Number

/-- The exact integer that arithmetic sees, if the number is an integer of word size. -/
def word? : Number → Option Int
  | int n => if IsWord n then some n else none
  | float _ => none

/-- The nearest float. -/
def toFloat : Number → Float
  | int n => Float.ofInt n
  | float x => x

/-- Combine exactly while operands and result are words, and on floats otherwise. -/
def combine (exact : Int → Int → Int) (rounded : Float → Float → Float) (a b : Number) : Number :=
  match a.word?, b.word? with
  | some m, some n =>
    if IsWord (exact m n) then int (exact m n) else float (rounded a.toFloat b.toFloat)
  | _, _ => float (rounded a.toFloat b.toFloat)

/-- The sum of two numbers. -/
def add (a b : Number) : Number := combine (· + ·) (· + ·) a b

/-- The product of two numbers. -/
def mul (a b : Number) : Number := combine (· * ·) (· * ·) a b

/-- Equality of numbers as data. -/
def same : Number → Number → Bool
  | int m, int n => m == n
  | float x, float y => x == y
  | _, _ => false

/-- A word is its own exact integer. -/
theorem word?_int {n : Int} (h : IsWord n) : (int n).word? = some n := by
  simp only [word?]
  rw [if_pos h]

/-- Words whose exact result is a word are combined exactly. -/
theorem combine_int {exact : Int → Int → Int} {rounded : Float → Float → Float} {m n : Int}
    (hm : IsWord m) (hn : IsWord n) (h : IsWord (exact m n)) :
    combine exact rounded (int m) (int n) = int (exact m n) := by
  simp only [combine, word?_int hm, word?_int hn]
  rw [if_pos h]

end Number

end Overlay
