import Overlay.Error
import Overlay.Operands
import Overlay.Operator.Basic

/-!
# Tables of custom operators

A custom operator is a function from the value so far and the operands to a new value and the
operands it leaves. A table gives names to custom operators; every name in it can be written in
a key, and the operator given to a name last is the one in force.
-/

namespace Overlay

/-- A custom operator with its place in the order of application. -/
structure CustomOperator where
  priority : Int
  apply : Option Value → Operands → Option Value × Operands

/-- The description of a custom operator, whose function has no text. -/
def CustomOperator.describe (operator : CustomOperator) : String :=
  "CustomOperator \x7b priority: " ++ toString operator.priority ++ ", reduce: \"<fn>\" \x7d"

/-- What is wrong with a name: it has to be written between parentheses, after a possible
hash. -/
def nameFault? (name : String) : Option NameFault :=
  if name.toList.isEmpty then some .empty
  else if '(' ∈ name.toList ∨ ')' ∈ name.toList then some .parenthesis
  else if '#' ∈ name.toList then some .hash
  else none

/-- The names that custom operators can have. -/
abbrev IsOperatorName (name : String) : Prop := nameFault? name = none

/-- A fit name has a character, and none of those that delimit it in a key. -/
theorem isOperatorName_iff {name : String} :
    IsOperatorName name ↔
      name.toList ≠ [] ∧ '(' ∉ name.toList ∧ ')' ∉ name.toList ∧ '#' ∉ name.toList := by
  unfold IsOperatorName nameFault?
  split
  · simp_all
  · split
    · next h => rcases h with h | h <;> simp [h]
    · split <;> simp_all

/-- The error of giving a custom operator an unfit name. -/
def nameError? (name : String) : Option Error := (nameFault? name).map (Error.invalidName name)

/-- Custom operators by name, the latest first. -/
structure OperatorTable where
  entries : List (String × CustomOperator)
  names_fit : ∀ e ∈ entries, IsOperatorName e.1

namespace OperatorTable

/-- The table without custom operators. -/
def empty : OperatorTable := ⟨[], by simp⟩

instance : Inhabited OperatorTable := ⟨empty⟩

/-- The operator in force under a name. -/
def find? (table : OperatorTable) (name : String) : Option CustomOperator :=
  table.entries.lookup name

/-- Test whether a name has an operator. -/
def contains (table : OperatorTable) (name : String) : Bool := (table.find? name).isSome

/-- The empty table has no operators. -/
@[simp] theorem find?_empty (name : String) : empty.find? name = none := rfl

/-- A name with an operator is fit. -/
theorem isOperatorName_of_contains {table : OperatorTable} {name : String}
    (h : table.contains name = true) : IsOperatorName name := by
  obtain ⟨operator, h⟩ := Option.isSome_iff_exists.1 h
  obtain ⟨before, after, h, -⟩ := List.lookup_eq_some_iff.1 h
  exact table.names_fit (name, operator) (by simp [h])

/-- Give an operator to a fit name, in place of the one that it may have had. -/
def insert (table : OperatorTable) (name : String) (operator : CustomOperator)
    (fit : IsOperatorName name) : OperatorTable where
  entries := (name, operator) :: table.entries
  names_fit e he := by
    rcases List.mem_cons.1 he with rfl | he
    · exact fit
    · exact table.names_fit e he

/-- The errors of giving operators to names, in order. -/
def nameErrors (added : List (String × CustomOperator)) : List Error :=
  added.filterMap fun e => nameError? e.1

/-- There is no error exactly when all names are fit. -/
theorem nameErrors_eq_nil_iff {added : List (String × CustomOperator)} :
    nameErrors added = [] ↔ ∀ e ∈ added, IsOperatorName e.1 := by
  simp [nameErrors, nameError?, List.filterMap_eq_nil_iff]

/-- A change of a table. What was changed before a failure stays changed. -/
abbrev Change := EStateM Error OperatorTable Unit

/-- Give an operator to one name, if it is fit. -/
def Change.register (name : String) (operator : CustomOperator) : Change := fun table =>
  match h : nameFault? name with
  | none => .ok () (table.insert name operator h)
  | some fault => .error (.invalidName name fault) table

/-- Give operators to names. All names are checked before the first of them gets its operator, and
each once more when it gets it. -/
def Change.registerAll (added : List (String × CustomOperator)) : Change :=
  match Error.collect? (nameErrors added) with
  | some e => throw e
  | none => added.forM fun e => Change.register e.1 e.2

/-- The table that a change leaves if it goes through. -/
def changed (table : OperatorTable) (change : Change) : Except Error OperatorTable :=
  match change.run table with
  | .ok () table => .ok table
  | .error e _ => .error e

/-- Give operators to names, all of them or, if any name is unfit, none. -/
def registerAll (table : OperatorTable) (added : List (String × CustomOperator)) :
    Except Error OperatorTable :=
  table.changed (.registerAll added)

/-- Give an operator to one name. -/
def register (table : OperatorTable) (name : String) (operator : CustomOperator) :
    Except Error OperatorTable :=
  table.changed (.register name operator)

/-- The distance in priority from one level of merges to the next. -/
def levelStep : Int := 1000

/-- The priority of an operator, lower ones being applied first. -/
def priority (table : OperatorTable) : Operator → Int
  | .merge .below level => -levelStep * level.toNat
  | .merge .above level => levelStep * level.toNat
  | .custom name => ((table.find? name).map CustomOperator.priority).getD 0
  | _ => 0

end OperatorTable

end Overlay
