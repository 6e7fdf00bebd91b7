import Overlay.Number.Literal

/-!
# The tokens of JSON

A text is read one character at a time. Between tokens only the four blanks of JSON may stand;
a word is a number or one of the three names; inside quotes a backslash starts an escape, and a
code escape in the range of surrogates is half of a pair that must be complete.
-/

namespace Overlay.Json

/-- The punctuation of JSON. -/
inductive Mark where
  | openArray
  | closeArray
  | openTree
  | closeTree
  | colon
  | comma
  deriving DecidableEq

/-- A token of JSON. -/
inductive Token where
  | mark (m : Mark)
  | null
  | bool (b : Bool)
  | number (n : Number)
  | string (s : String)

/-- Where the reader of tokens stands. Characters of the token at hand are kept newest first;
`high` is the first half of a pair of code escapes whose second half must follow. -/
inductive Scan where
  | between
  | word (read : List Char)
  | quoted (read : List Char) (high : Option Nat)
  | escape (read : List Char) (high : Option Nat)
  | code (read : List Char) (high : Option Nat) (digits : Nat) (value : Nat)

/-- The blanks that may stand between tokens. -/
def isGap (c : Char) : Bool := c == ' ' || c == '\t' || c == '\n' || c == '\r'

/-- The mark that a character is. -/
def Mark.ofChar? : Char → Option Mark
  | '[' => some .openArray
  | ']' => some .closeArray
  | '\x7b' => some .openTree
  | '\x7d' => some .closeTree
  | ':' => some .colon
  | ',' => some .comma
  | _ => none

/-- The characters that words are made of. -/
def isWordChar (c : Char) : Bool := c.isAlphanum || c == '-' || c == '+' || c == '.'

/-- The token that a word is. -/
def Token.ofWord? (word : List Char) : Option Token :=
  if word = ['n', 'u', 'l', 'l'] then some .null
  else if word = ['t', 'r', 'u', 'e'] then some (.bool true)
  else if word = ['f', 'a', 'l', 's', 'e'] then some (.bool false)
  else (Number.ofChars? word).map .number

/-- The character that a short escape stands for. -/
def shortEscape? : Char → Option Char
  | '"' => some '"'
  | '\\' => some '\\'
  | '/' => some '/'
  | 'b' => some '\x08'
  | 'f' => some '\x0C'
  | 'n' => some '\n'
  | 'r' => some '\r'
  | 't' => some '\t'
  | _ => none

/-- The value of a hexadecimal digit. -/
def hexValue? (c : Char) : Option Nat :=
  if '0' ≤ c ∧ c ≤ '9' then some (c.toNat - '0'.toNat)
  else if 'a' ≤ c ∧ c ≤ 'f' then some (c.toNat - 'a'.toNat + 10)
  else if 'A' ≤ c ∧ c ≤ 'F' then some (c.toNat - 'A'.toNat + 10)
  else none

/-- Go on after a code escape: a first half waits for its second, and no second half stands
alone. -/
def Scan.afterCode (read : List Char) (high : Option Nat) (value : Nat) : Option Scan :=
  match high with
  | some h =>
    if 0xDC00 ≤ value ∧ value ≤ 0xDFFF then
      some (.quoted (Char.ofNat (0x10000 + (h - 0xD800) * 0x400 + (value - 0xDC00)) :: read) none)
    else none
  | none =>
    if 0xD800 ≤ value ∧ value ≤ 0xDBFF then some (.quoted read (some value))
    else if 0xDC00 ≤ value ∧ value ≤ 0xDFFF then none
    else some (.quoted (Char.ofNat value :: read) none)

/-- Read a character between two tokens. -/
def Scan.start (done : List Token) (c : Char) : Option (List Token × Scan) :=
  if isGap c then some (done, .between)
  else if c = '"' then some (done, .quoted [] none)
  else if isWordChar c then some (done, .word [c])
  else (Mark.ofChar? c).map fun m => (.mark m :: done, .between)

/-- Read one character. The tokens that are complete are kept newest first. -/
def Scan.step : List Token × Scan → Char → Option (List Token × Scan)
  | (done, .between), c => start done c
  | (done, .word read), c =>
    if isWordChar c then some (done, .word (c :: read))
    else (Token.ofWord? read.reverse).bind fun t => start (t :: done) c
  | (done, .quoted read none), c =>
    if c = '"' then some (.string (String.ofList read.reverse) :: done, .between)
    else if c = '\\' then some (done, .escape read none)
    else if c.toNat < 0x20 then none
    else some (done, .quoted (c :: read) none)
  | (done, .quoted read (some high)), c =>
    if c = '\\' then some (done, .escape read (some high)) else none
  | (done, .escape read high), c =>
    if c = 'u' then some (done, .code read high 0 0)
    else match high with
      | none => (shortEscape? c).map fun e => (done, .quoted (e :: read) none)
      | some _ => none
  | (done, .code read high digits value), c => do
    let value := 16 * value + (← hexValue? c)
    if digits < 3 then some (done, .code read high (digits + 1) value)
    else (afterCode read high value).map (done, ·)

/-- The tokens of a text, if it ends between two tokens or with a word. -/
def tokens? (s : List Char) : Option (List Token) := do
  match ← s.foldlM Scan.step ([], .between) with
  | (done, .between) => some done.reverse
  | (done, .word read) => (Token.ofWord? read.reverse).map fun t => (t :: done).reverse
  | _ => none

end Overlay.Json
