import Overlay.Value

/-!
# Errors

What can be wrong with a request: the name of a custom operator, or a layer that is not a tree.
Several errors found together are reported as one, in the order in which they were found.
-/

namespace Overlay

/-- Why a text cannot name a custom operator. -/
inductive NameFault where
  | empty
  | parenthesis
  | hash
  deriving DecidableEq

/-- The wording of a fault in a name. -/
def NameFault.reason : NameFault → String
  | empty => "name must not be empty"
  | parenthesis => "name must not contain parentheses"
  | hash => "name must not contain '#'"

/-- An error of registration or of layering. -/
inductive Error where
  | invalidName (name : String) (fault : NameFault)
  | notATree (layer : String) (found : Kind)
  | several (errors : List Error)

mutual

/-- The message of an error. -/
def Error.message : Error → String
  | .invalidName name fault => "invalid operator name '" ++ name ++ "': " ++ fault.reason
  | .notATree layer found =>
    "layer " ++ layer ++ " is not a tree (found " ++ found.name ++ ")"
  | .several errors =>
    toString errors.length ++ " errors:\n" ++ Error.messageLines "" errors

/-- One line for each error, the first after the given break and the others after line ends. -/
def Error.messageLines (lineBreak : String) : List Error → String
  | [] => ""
  | e :: rest => lineBreak ++ "  - " ++ e.message ++ Error.messageLines "\n" rest

end

/-- The list of messages in the text of several errors. -/
def Error.listing (errors : List Error) : String := Error.messageLines "" errors

/-- Report errors together: none as nothing, one as itself and more as several. -/
def Error.collect? : List Error → Option Error
  | [] => none
  | [e] => some e
  | errors => some (.several errors)

/-- Give a value, unless there are errors to report. -/
def Error.guard {α : Type} (errors : List Error) (value : α) : Except Error α :=
  match Error.collect? errors with
  | none => .ok value
  | some e => .error e

/-- Nothing is reported exactly when there is no error. -/
theorem Error.collect?_eq_none_iff {errors : List Error} :
    Error.collect? errors = none ↔ errors = [] := by
  rcases errors with _ | ⟨e, _ | ⟨f, rest⟩⟩ <;> simp [Error.collect?]

/-- The error that reports errors: the only one itself, or several of them in order. -/
inductive Error.Reports : List Error → Error → Prop
  | one (e : Error) : Reports [e] e
  | several {errors : List Error} (h : 2 ≤ errors.length) : Reports errors (.several errors)

/-- Errors that are collected are reported. -/
theorem Error.reports_of_collect? {errors : List Error} {e : Error}
    (h : Error.collect? errors = some e) : Error.Reports errors e := by
  rcases errors with _ | ⟨f, _ | ⟨g, rest⟩⟩
  · simp [Error.collect?] at h
  · obtain rfl := Option.some.inj h
    exact .one f
  · obtain rfl := Option.some.inj h
    exact .several (by simp)

end Overlay
