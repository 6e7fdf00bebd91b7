import Overlay.Number.Text
import Overlay.Value

/-!
# Writing JSON

The compact text of a value: no blanks, keys in order, and only the characters escaped that must
be.
-/

namespace Overlay.Json

/-- The escape of a character inside quotes. -/
def escapeChar (c : Char) : List Char :=
  match c with
  | '"' => ['\\', '"']
  | '\\' => ['\\', '\\']
  | '\x08' => ['\\', 'b']
  | '\x0C' => ['\\', 'f']
  | '\n' => ['\\', 'n']
  | '\r' => ['\\', 'r']
  | '\t' => ['\\', 't']
  | c =>
    if c.toNat < 0x20 then
      ['\\', 'u', '0', '0', Nat.digitChar (c.toNat / 16), Nat.digitChar (c.toNat % 16)]
    else [c]

/-- Write a text in quotes. -/
def quote (s : String) : String :=
  "\"" ++ String.ofList (s.toList.flatMap escapeChar) ++ "\""

mutual

/-- Write a value. -/
def write : Value → String
  | .null => "null"
  | .bool b => if b then "true" else "false"
  | .number n => n.text
  | .string s => quote s
  | .array items => "[" ++ writeItems "" items ++ "]"
  | .tree entries => "\x7b" ++ writeEntries "" entries ++ "\x7d"

/-- Write items, the first after the given separator and the others after commas. -/
def writeItems (separator : String) : List Value → String
  | [] => ""
  | v :: rest => separator ++ write v ++ writeItems "," rest

/-- Write entries, the first after the given separator and the others after commas. -/
def writeEntries (separator : String) : List (String × Value) → String
  | [] => ""
  | (k, v) :: rest => separator ++ quote k ++ ":" ++ write v ++ writeEntries "," rest

end

end Overlay.Json
