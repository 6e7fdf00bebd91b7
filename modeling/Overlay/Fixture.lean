import Overlay.Json.Reader
import Overlay.Json.Writer
import Overlay.Text.Blank

/-!
# Fixtures

Values and trees that stand as text in examples, and names and values that stand in quotes in
the steps of a scenario. Blanks around a text are dropped, and of a quoted text one pair of
quotes.
-/

namespace Overlay

/-- Why a text or value is no fixture. -/
inductive FixtureFault where
  | argumentNotJson (text : String)
  | textNotJson (text : String)
  | textNotATree (found : Value)
  | valueNotATree (found : Value)

/-- The message of a fault. -/
def FixtureFault.message : FixtureFault → String
  | argumentNotJson text => "step argument is not JSON: " ++ text
  | textNotJson text => "parse JSON fixture: " ++ text
  | textNotATree found => "expected a JSON object, found " ++ Json.write found
  | valueNotATree found => "fixture is not a JSON object: " ++ Json.write found

namespace Fixture

/-- What stands between two of the given quotes. One quote alone is no pair. -/
def between? (quote : Char) (s : List Char) : Option (List Char) :=
  match s with
  | [] => none
  | c :: rest =>
    if c = quote ∧ rest.getLast? = some quote then some rest.dropLast else none

/-- Drop the blanks around a text and then one pair of single or double quotes. -/
def unquote (text : String) : String :=
  let trimmed := trimBlanks text.toList
  String.ofList ((between? '\'' trimmed).or (between? '"' trimmed) |>.getD trimmed)

/-- Read the value that an argument of a step writes. -/
def argument (text : String) : Except FixtureFault Value :=
  match Json.read? (unquote text).toList with
  | some value => .ok value
  | none => .error (.argumentNotJson (unquote text))

/-- Read the tree that a text writes. -/
def readTree (text : String) : Except FixtureFault Tree :=
  match Json.read? (trimBlanks text.toList) with
  | some (.tree t) => .ok t
  | some value => .error (.textNotATree value)
  | none => .error (.textNotJson text)

/-- Take a value as the tree that it is. -/
def tree (value : Value) : Except FixtureFault Tree :=
  match value with
  | .tree t => .ok t
  | value => .error (.valueNotATree value)

end Fixture

end Overlay
