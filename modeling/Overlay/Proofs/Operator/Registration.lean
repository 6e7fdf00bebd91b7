import Mathlib.Data.List.Forall2
import Overlay.Proofs.Key.Grammar

/-!
# Tables over runs of registrations

A call gives operators to one name or to several at once. It goes through for all names or for none: one
that fails reports every unfit name and leaves the table as it was, although the names get their operators
one after the other. So over a run of calls a table has each name with the operator that was given to it
last, and keeps it; and every name of a table can be written in a key.
-/

namespace Overlay

/-- A call that gives operators to names. -/
inductive Registration where
  | one (name : String) (operator : CustomOperator)
  | several (added : List (String × CustomOperator))

namespace Registration

/-- The names of a call with the operators that they are given, in order. -/
def added : Registration → List (String × CustomOperator)
  | one name operator => [(name, operator)]
  | several added => added

/-- The change that a call makes. -/
def change : Registration → OperatorTable.Change
  | one name operator => .register name operator
  | several added => .registerAll added

/-- The names of a call that cannot be given operators, in order. -/
def unfit (call : Registration) : List String :=
  (call.added.map Prod.fst).filter fun name => !decide (IsOperatorName name)

/-- The names and operators of the calls that have no unfit name, in order. -/
def given (calls : List Registration) : List (String × CustomOperator) :=
  (calls.filter fun call => call.unfit.isEmpty).flatMap added

/-- The table that a call leaves, whether it goes through or not. -/
def perform (table : OperatorTable) (call : Registration) : OperatorTable :=
  match call.change.run table with
  | .ok _ table | .error _ table => table

/-- The table that a run of calls leaves. -/
def run (calls : List Registration) (table : OperatorTable) : OperatorTable :=
  calls.foldl perform table

variable {call : Registration} {table : OperatorTable}

section Call

/-- A call has no unfit name exactly when all its names are fit. -/
theorem unfit_eq_nil_iff : call.unfit = [] ↔ ∀ e ∈ call.added, IsOperatorName e.1 := by
  simp [unfit, List.filter_eq_nil_iff]

/-- Each unfit name has its error. -/
theorem forall₂_nameErrors (call : Registration) :
    List.Forall₂ (fun name error => ∃ fault, nameFault? name = some fault ∧
      error = Error.invalidName name fault) call.unfit (OperatorTable.nameErrors call.added) := by
  unfold unfit OperatorTable.nameErrors
  induction call.added with
  | nil => exact .nil
  | cons e rest ih =>
    cases hfault : nameFault? e.1 with
    | none => simpa [nameError?, hfault] using ih
    | some fault => simpa [nameError?, hfault] using ih

/-- Giving an operator to a fit name goes through. -/
theorem register_of_fit {name : String} (operator : CustomOperator) (fit : IsOperatorName name)
    (table : OperatorTable) :
    OperatorTable.Change.register name operator table = .ok () (table.insert name operator fit) := by
  unfold OperatorTable.Change.register
  split
  · rfl
  · next fault hfault => exact absurd (fit.symm.trans hfault) (by simp)

/-- Giving operators to fit names one after the other goes through, and puts the last one first. -/
theorem exists_forM_register {added : List (String × CustomOperator)}
    (fit : ∀ e ∈ added, IsOperatorName e.1) (table : OperatorTable) :
    ∃ table' : OperatorTable,
      (added.forM fun e => OperatorTable.Change.register e.1 e.2) table = .ok () table' ∧
        table'.entries = added.reverse ++ table.entries := by
  induction added generalizing table with
  | nil => exact ⟨table, rfl, rfl⟩
  | cons e rest ih =>
    have hfirst := register_of_fit e.2 (fit e List.mem_cons_self) table
    obtain ⟨table', hrest, hentries⟩ := ih (fun f hf => fit f (List.mem_cons_of_mem _ hf))
      (table.insert e.1 e.2 (fit e List.mem_cons_self))
    refine ⟨table', ?_, ?_⟩
    · simp only [List.forM_eq_forM, List.forM_cons, bind, EStateM.bind, hfirst] at hrest ⊢
      exact hrest
    · simp [hentries, OperatorTable.insert]

/-- A call without unfit names goes through and adds what it gives. -/
theorem exists_change_of_fit (h : call.unfit = []) (table : OperatorTable) :
    ∃ table' : OperatorTable, call.change table = .ok () table' ∧
      table'.entries = call.added.reverse ++ table.entries := by
  have fit := unfit_eq_nil_iff.1 h
  cases call with
  | one name operator =>
    exact ⟨_, register_of_fit operator (fit (name, operator) List.mem_cons_self) table, rfl⟩
  | several added =>
    have hnone : Error.collect? (OperatorTable.nameErrors added) = none :=
      Error.collect?_eq_none_iff.2 (OperatorTable.nameErrors_eq_nil_iff.2 fit)
    simp only [change, OperatorTable.Change.registerAll, hnone]
    exact exists_forM_register fit table

/-- A call with unfit names fails, reports their errors and leaves the table as it was. -/
theorem exists_change_of_unfit (h : call.unfit ≠ []) (table : OperatorTable) :
    ∃ e, Error.Reports (OperatorTable.nameErrors call.added) e ∧
      call.change table = .error e table := by
  have hunfit := mt unfit_eq_nil_iff.2 h
  cases call with
  | one name operator =>
    obtain ⟨fault, hfault⟩ := Option.ne_none_iff_exists'.1 fun hfit =>
      hunfit fun e he => by rwa [List.mem_singleton.1 he]
    refine ⟨.invalidName name fault, ?_, ?_⟩
    · simpa [added, OperatorTable.nameErrors, nameError?, hfault] using Error.Reports.one _
    · simp only [change]
      unfold OperatorTable.Change.register
      split
      · next hfit => exact absurd (hfault.symm.trans hfit) (by simp)
      · next fault' hfault' => rw [Option.some.inj (hfault.symm.trans hfault')]
  | several added =>
    obtain ⟨e, he⟩ := Option.ne_none_iff_exists'.1 fun hnone =>
      hunfit (OperatorTable.nameErrors_eq_nil_iff.1 (Error.collect?_eq_none_iff.1 hnone))
    have herrors : Error.collect? (OperatorTable.nameErrors added) = some e := he
    refine ⟨e, Error.reports_of_collect? he, ?_⟩
    simp only [change, OperatorTable.Change.registerAll, herrors]
    rfl

/-- A call adds what it gives if it has no unfit name, and nothing otherwise. -/
theorem entries_perform (table : OperatorTable) (call : Registration) :
    (perform table call).entries =
      (if call.unfit.isEmpty then call.added else []).reverse ++ table.entries := by
  by_cases h : call.unfit = []
  · obtain ⟨table', hchange, hentries⟩ := exists_change_of_fit h table
    have hrun : call.change.run table = .ok () table' := hchange
    simp [perform, hrun, h, hentries]
  · obtain ⟨e, -, hchange⟩ := exists_change_of_unfit h table
    have hrun : call.change.run table = .error e table := hchange
    simp [perform, hrun, h]

end Call

section Run

/-- A run of calls adds what is given, the last one first. -/
theorem entries_run (calls : List Registration) (table : OperatorTable) :
    (run calls table).entries = (given calls).reverse ++ table.entries := by
  induction calls generalizing table with
  | nil => rfl
  | cons call rest ih =>
    have hrest := ih (perform table call)
    rw [entries_perform] at hrest
    simp only [run, List.foldl_cons] at hrest ⊢
    rw [hrest]
    cases hfit : call.unfit.isEmpty <;> simp [given, hfit]

/-- Looking up a key in a reversed list finds its last entry. -/
theorem lookup_reverse {α : Type} (entries : List (String × α)) (key : String) :
    entries.reverse.lookup key = (entries.filter fun e => e.1 == key).getLast?.map Prod.snd := by
  have hfirst (entries : List (String × α)) :
      entries.lookup key = (entries.filter fun e => e.1 == key).head?.map Prod.snd := by
    induction entries with
    | nil => rfl
    | cons e rest ih =>
      obtain ⟨name, a⟩ := e
      rw [List.lookup_cons, BEq.comm, ih]
      cases hkey : name == key <;> simp [hkey]
  rw [hfirst, List.filter_reverse, List.head?_reverse]

/-- A run leaves each name with the operator that was given to it last. -/
theorem find?_run (calls : List Registration) (name : String) :
    (run calls .empty).find? name =
      ((given calls).filter fun e => e.1 == name).getLast?.map Prod.snd := by
  rw [OperatorTable.find?, entries_run, OperatorTable.empty, List.append_nil, lookup_reverse]

/-- A run keeps the names of a table. -/
theorem contains_run (calls : List Registration) {name : String} (h : table.contains name = true) :
    (run calls table).contains name = true := by
  obtain ⟨operator, hfind⟩ := Option.isSome_iff_exists.1 h
  have hlookup : table.entries.lookup name = some operator := hfind
  rw [OperatorTable.contains, OperatorTable.find?, entries_run, List.lookup_append, hlookup]
  cases (given calls).reverse.lookup name <;> rfl

/-- A name of a table is read between parentheses, with or without a hash in front of it. -/
theorem parse_name {name : String} (h : table.contains name = true) (base : String) :
    Key.parse table ("(" ++ name ++ ")" ++ base) = ⟨.custom name, base, false, false⟩ ∧
      Key.parse table ("(#" ++ name ++ ")" ++ base) = ⟨.custom name, base, true, false⟩ := by
  have hread (spread : Bool) := Key.ofChars_of_marked
    (Key.Marked.operator false (@Marker.Spells.custom table name base.toList spread h))
  constructor
  · simpa [Key.parse] using hread false
  · simpa [Key.parse] using hread true

end Run

/-- Over any run of calls on the empty table a call goes through exactly when each of its names is not empty
and free of parentheses and hashes. A call that fails leaves the table as it was and reports its unfit
names, in order. Each name has the operator that was given to it last by a call that went through, no name
gets lost, and every name of the table is read in a key in front of any base key. -/
theorem registrations_over_runs (calls : List Registration) :
    (∀ (call : Registration) (table : OperatorTable),
        ((∃ table', call.change table = .ok () table') ↔ call.unfit = []) ∧
        (call.unfit = [] ↔ ∀ e ∈ call.added,
          e.1 ≠ "" ∧ '(' ∉ e.1.toList ∧ ')' ∉ e.1.toList ∧ '#' ∉ e.1.toList) ∧
        ∀ e table', call.change table = .error e table' → table' = table ∧
          ∃ errors, List.Forall₂ (fun name error => ∃ fault, nameFault? name = some fault ∧
            error = .invalidName name fault) call.unfit errors ∧ Error.Reports errors e) ∧
      (∀ name, (run calls .empty).find? name =
        ((given calls).filter fun e => e.1 == name).getLast?.map Prod.snd) ∧
      (∀ before after, calls = before ++ after → ∀ name,
        (run before .empty).contains name = true → (run calls .empty).contains name = true) ∧
      ∀ name, (run calls .empty).contains name = true → ∀ base,
        Key.parse (run calls .empty) ("(" ++ name ++ ")" ++ base) =
            ⟨.custom name, base, false, false⟩ ∧
          Key.parse (run calls .empty) ("(#" ++ name ++ ")" ++ base) =
            ⟨.custom name, base, true, false⟩ := by
  refine ⟨fun call table => ⟨⟨?_, ?_⟩, ?_, ?_⟩, find?_run calls, ?_, ?_⟩
  · rintro ⟨table', hok⟩
    by_contra hunfit
    obtain ⟨e, -, herror⟩ := exists_change_of_unfit hunfit table
    exact absurd (hok.symm.trans herror) (by simp)
  · intro hfit
    obtain ⟨table', hok, -⟩ := exists_change_of_fit hfit table
    exact ⟨table', hok⟩
  · simp only [unfit_eq_nil_iff, isOperatorName_iff, ne_eq, String.toList_eq_nil_iff]
  · intro e table' herror
    have hunfit : call.unfit ≠ [] := fun hfit => by
      obtain ⟨table'', hok, -⟩ := exists_change_of_fit hfit table
      exact absurd (hok.symm.trans herror) (by simp)
    obtain ⟨e', hreports, herror'⟩ := exists_change_of_unfit hunfit table
    obtain ⟨rfl, rfl⟩ := EStateM.Result.error.inj (herror'.symm.trans herror)
    exact ⟨rfl, _, forall₂_nameErrors call, hreports⟩
  · rintro before after rfl name hname
    rw [run, List.foldl_append]
    exact contains_run after hname
  · exact fun name hname base => parse_name hname base

/-- A name that is given operators again and twice in one call, beside calls that fail for some of their
names. -/
theorem registrations_over_run_with_refusals :
    let operator (priority : Int) : CustomOperator := ⟨priority, fun value operands => (value, operands)⟩
    let refused : Registration :=
      .several [("sum", operator 2), ("", operator 3), ("pow", operator 4), ("a#b", operator 5)]
    let calls : List Registration := [.one "pow" (operator 1), refused,
      .several [("sum", operator 6), ("pow", operator 7), ("sum", operator 8)], .one "p)w" (operator 9)]
    let errors : List Error := [.invalidName "" .empty, .invalidName "a#b" .hash]
    refused.change .empty = .error (.several errors) .empty ∧ refused.unfit = ["", "a#b"] ∧
      ((run calls .empty).find? "sum").map CustomOperator.priority = some 8 ∧
      ((run calls .empty).find? "pow").map CustomOperator.priority = some 7 ∧
      (run [.one "pow" (operator 1)] .empty).contains "pow" = true ∧
      (run calls .empty).contains "pow" = true ∧
      Key.parse (run calls .empty) "(#pow)(sum)hp" = ⟨.custom "pow", "(sum)hp", true, false⟩ := by
  intro operator refused calls errors
  obtain ⟨hcalls, hfind, hkept, hread⟩ := registrations_over_runs calls
  have hbefore : (run [.one "pow" (operator 1)] .empty).contains "pow" = true := by decide +kernel
  have hpow := hkept [.one "pow" (operator 1)] _ rfl "pow" hbefore
  have hunfit : refused.unfit = ["", "a#b"] := by decide +kernel
  have hempty : nameFault? "" = some .empty := by decide +kernel
  have hhash : nameFault? "a#b" = some .hash := by decide +kernel
  have hrefused : refused.change .empty = .error (.several errors) .empty := by
    have hsome : refused.unfit ≠ [] := by simp [hunfit]
    obtain ⟨e, -, herror⟩ := exists_change_of_unfit hsome .empty
    obtain ⟨-, errors', hall, hreports⟩ := (hcalls refused .empty).2.2 e .empty herror
    rw [hunfit] at hall
    obtain ⟨error, rest, ⟨fault, hfault, rfl⟩, hrest, rfl⟩ := List.forall₂_cons_left_iff.1 hall
    obtain ⟨error', last, ⟨fault', hfault', rfl⟩, hlast, rfl⟩ := List.forall₂_cons_left_iff.1 hrest
    obtain rfl := List.forall₂_nil_left_iff.1 hlast
    obtain rfl := Option.some.inj (hempty.symm.trans hfault)
    obtain rfl := Option.some.inj (hhash.symm.trans hfault')
    cases hreports
    exact herror
  refine ⟨hrefused, hunfit, ?_, ?_, hbefore, hpow, (hread "pow" hpow "(sum)hp").2⟩
  · rw [hfind]
    decide +kernel
  · rw [hfind]
    decide +kernel

end Registration

end Overlay
