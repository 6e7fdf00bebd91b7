import Overlay.Operator.Table

/-!
# The order of application

The operators at one base key are applied by priority. The central operators form one block,
which stands where the first of them is declared and is ordered by rank inside; all other ties
go by the order of declaration. Merges that are settled on their own go by level, those below
the value first.

The order is written as a place for each application, and places are compared part by part.
-/

namespace Overlay

/-- An operator to be applied at a base key with all its operands, and the position of the key
that declared it first. -/
structure Application where
  operator : Operator
  operands : Operands
  position : Nat

/-- A place in an order, compared from its first part on. -/
structure Place where
  priority : Int
  anchor : Nat
  rank : Nat
  position : Nat
  deriving DecidableEq

/-- Test whether a place does not come after another. -/
def Place.notAfter (a b : Place) : Bool :=
  a.priority < b.priority || a.priority == b.priority &&
    (a.anchor < b.anchor || a.anchor == b.anchor &&
      (a.rank < b.rank || a.rank == b.rank && a.position ≤ b.position))

/-- Insert into an ordered list, in front of the elements with the same place. -/
def insertByPlace {α : Type} (place : α → Place) (a : α) : List α → List α
  | [] => [a]
  | b :: rest =>
    if (place a).notAfter (place b) then a :: b :: rest else b :: insertByPlace place a rest

/-- Order a list by the places of its elements, keeping the order of those with the same
place. -/
def orderByPlace {α : Type} (place : α → Place) : List α → List α
  | [] => []
  | a :: rest => insertByPlace place a (orderByPlace place rest)

/-- The first position of a central operator. -/
def centralPosition (applications : List Application) : Nat :=
  (((applications.filter fun a => a.operator.isCentral).map Application.position).min?).getD 0

/-- The place of an operator in the order of application. -/
def OperatorTable.place (table : OperatorTable) (applications : List Application)
    (a : Application) : Place :=
  let anchor := if a.operator.isCentral then centralPosition applications else a.position
  ⟨table.priority a.operator, anchor, a.operator.centralRank, a.position⟩

/-- The operators in the order of application. -/
def OperatorTable.inOrder (table : OperatorTable) (applications : List Application) :
    List Application :=
  orderByPlace (table.place applications) applications

/-- The place of a merge in the order from the value outwards, below before above. -/
def Application.distance (a : Application) : Place :=
  match a.operator with
  | .merge .below level => ⟨0, level.toNat, 0, a.position⟩
  | .merge .above level => ⟨1, level.toNat, 0, a.position⟩
  | _ => ⟨2, 0, 0, a.position⟩

/-- The merges in the order from the value outwards. -/
def outwards (merges : List Application) : List Application :=
  orderByPlace Application.distance merges

/-- Inserting adds just the one element. -/
theorem insertByPlace_perm {α : Type} (place : α → Place) (a : α) (as : List α) :
    (insertByPlace place a as).Perm (a :: as) := by
  induction as with
  | nil => exact .refl _
  | cons b rest ih =>
    simp only [insertByPlace]
    split
    · exact .refl _
    · exact (ih.cons b).trans (.swap a b rest)

/-- Ordering loses and adds nothing. -/
theorem orderByPlace_perm {α : Type} (place : α → Place) (as : List α) :
    (orderByPlace place as).Perm as := by
  induction as with
  | nil => exact .refl _
  | cons a rest ih => exact (insertByPlace_perm place a _).trans (ih.cons a)

/-- Places are compared part by part. -/
theorem Place.notAfter_iff {a b : Place} :
    a.notAfter b = true ↔ a.priority < b.priority ∨ a.priority = b.priority ∧
      (a.anchor < b.anchor ∨ a.anchor = b.anchor ∧
        (a.rank < b.rank ∨ a.rank = b.rank ∧ a.position ≤ b.position)) := by
  simp [Place.notAfter]

/-- Of two places one does not come after the other. -/
theorem Place.notAfter_total (a b : Place) : a.notAfter b = true ∨ b.notAfter a = true := by
  simp only [Place.notAfter_iff]
  omega

/-- Places are compared transitively. -/
theorem Place.notAfter_trans {a b c : Place} (hab : a.notAfter b = true)
    (hbc : b.notAfter c = true) : a.notAfter c = true := by
  simp only [Place.notAfter_iff] at *
  omega

/-- Inserting keeps a list ordered. -/
theorem insertByPlace_ordered {α : Type} (place : α → Place) (a : α) {as : List α}
    (h : as.Pairwise fun a b => (place a).notAfter (place b) = true) :
    (insertByPlace place a as).Pairwise fun a b => (place a).notAfter (place b) = true := by
  induction as with
  | nil => simp [insertByPlace]
  | cons b rest ih =>
    have hb := List.pairwise_cons.1 h
    simp only [insertByPlace]
    split
    · next hab =>
      refine List.pairwise_cons.2 ⟨fun c hc => ?_, h⟩
      rcases List.mem_cons.1 hc with rfl | hc
      · exact hab
      · exact Place.notAfter_trans hab (hb.1 c hc)
    · next hab =>
      refine List.pairwise_cons.2 ⟨fun c hc => ?_, ih hb.2⟩
      rcases List.mem_cons.1 ((insertByPlace_perm place a rest).mem_iff.1 hc) with rfl | hc
      · exact (Place.notAfter_total (place b) (place c)).resolve_right hab
      · exact hb.1 c hc

/-- Ordering puts the places in order. -/
theorem orderByPlace_ordered {α : Type} (place : α → Place) (as : List α) :
    (orderByPlace place as).Pairwise fun a b => (place a).notAfter (place b) = true := by
  induction as with
  | nil => exact .nil
  | cons a rest ih => exact insertByPlace_ordered place a ih

end Overlay
