import Overlay.Number.Basic
import Overlay.Number.Binary

/-!
# Values and trees

A value is a scalar, an array or a tree, and a tree is its entries in order. The order of the
keys is part of a tree: writing a key that is present keeps its place, and a new key comes last.
Two values are the same data when they differ at most in the order of keys.
-/

namespace Overlay

/-- A value of a tree. -/
inductive Value where
  | null
  | bool (b : Bool)
  | number (n : Number)
  | string (s : String)
  | array (items : List Value)
  | tree (entries : List (String × Value))
  deriving Inhabited

/-- The entries of a tree, in order. -/
abbrev Tree := List (String × Value)

mutual

/-- Decide equality of values, the order of keys included. -/
def Value.decideEq : (a b : Value) → Decidable (a = b)
  | .null, .null => isTrue rfl
  | .bool a, .bool b => decidable_of_iff (a = b) (by simp)
  | .number a, .number b => decidable_of_iff (a = b) (by simp)
  | .string a, .string b => decidable_of_iff (a = b) (by simp)
  | .array a, .array b =>
    match Value.decideEqItems a b with
    | isTrue h => isTrue (by rw [h])
    | isFalse h => isFalse (by simpa using h)
  | .tree a, .tree b =>
    match Value.decideEqEntries a b with
    | isTrue h => isTrue (by rw [h])
    | isFalse h => isFalse (by simpa using h)
  | .null, .bool _ | .null, .number _ | .null, .string _ | .null, .array _ | .null, .tree _
  | .bool _, .null | .bool _, .number _ | .bool _, .string _ | .bool _, .array _
  | .bool _, .tree _ | .number _, .null | .number _, .bool _ | .number _, .string _
  | .number _, .array _ | .number _, .tree _ | .string _, .null | .string _, .bool _
  | .string _, .number _ | .string _, .array _ | .string _, .tree _ | .array _, .null
  | .array _, .bool _ | .array _, .number _ | .array _, .string _ | .array _, .tree _
  | .tree _, .null | .tree _, .bool _ | .tree _, .number _ | .tree _, .string _
  | .tree _, .array _ => isFalse (by simp)

/-- Decide equality of lists of values. -/
def Value.decideEqItems : (a b : List Value) → Decidable (a = b)
  | [], [] => isTrue rfl
  | [], _ :: _ | _ :: _, [] => isFalse (by simp)
  | a :: as, b :: bs =>
    match Value.decideEq a b, Value.decideEqItems as bs with
    | isTrue h, isTrue hs => isTrue (by rw [h, hs])
    | isFalse h, _ => isFalse (by simp [h])
    | _, isFalse hs => isFalse (by simp [hs])

/-- Decide equality of lists of entries. -/
def Value.decideEqEntries : (a b : List (String × Value)) → Decidable (a = b)
  | [], [] => isTrue rfl
  | [], _ :: _ | _ :: _, [] => isFalse (by simp)
  | (k, a) :: as, (l, b) :: bs =>
    match decEq k l, Value.decideEq a b, Value.decideEqEntries as bs with
    | isTrue hk, isTrue h, isTrue hs => isTrue (by rw [hk, h, hs])
    | isFalse hk, _, _ => isFalse (by simp [hk])
    | _, isFalse h, _ => isFalse (by simp [h])
    | _, _, isFalse hs => isFalse (by simp [hs])

end

instance : DecidableEq Value := Value.decideEq

mutual

/-- Test whether two values are the same data. -/
def Value.same : Value → Value → Bool
  | .null, .null => true
  | .bool a, .bool b => a == b
  | .number a, .number b => a.same b
  | .string a, .string b => a == b
  | .array a, .array b => Value.sameItems a b
  | .tree a, .tree b => a.length == b.length && Value.sameEntries a b
  | _, _ => false

/-- Test whether two lists hold the same data, item by item. -/
def Value.sameItems : List Value → List Value → Bool
  | [], [] => true
  | a :: as, b :: bs => a.same b && Value.sameItems as bs
  | _, _ => false

/-- Test whether each entry of the first tree is found in the second, with the same data. -/
def Value.sameEntries : List (String × Value) → List (String × Value) → Bool
  | [], _ => true
  | (k, a) :: as, bs =>
    (match bs.lookup k with
      | some b => a.same b
      | none => false) && Value.sameEntries as bs

end

mutual

/-- The weight of a value: one for itself and the weight of what it holds. -/
@[simp] def Value.weight : Value → Nat
  | .array items => 1 + Value.weightOfItems items
  | .tree entries => 1 + Tree.weight entries
  | _ => 1

/-- The weight of a list of values. -/
@[simp] def Value.weightOfItems : List Value → Nat
  | [] => 0
  | a :: as => a.weight + Value.weightOfItems as

/-- The weight of a tree: one for each key and the weight of its value. -/
@[simp] def Tree.weight : Tree → Nat
  | [] => 0
  | (_, a) :: as => 1 + a.weight + Tree.weight as

end

/-- Every value has some weight. -/
theorem Value.weight_pos (v : Value) : 0 < v.weight := by
  cases v <;> simp only [Value.weight] <;> omega

/-- The kinds of values, as error messages name them. -/
inductive Kind where
  | null
  | boolean
  | number
  | string
  | array
  | tree
  deriving DecidableEq

/-- The name of a kind. -/
def Kind.name : Kind → String
  | null => "null"
  | boolean => "boolean"
  | number => "number"
  | string => "string"
  | array => "array"
  | tree => "tree"

namespace Value

/-- The kind of a value. -/
def kind : Value → Kind
  | null => .null
  | bool _ => .boolean
  | number _ => .number
  | string _ => .string
  | array _ => .array
  | tree _ => .tree

/-- The number that a value is. -/
def number? : Value → Option Number
  | number n => some n
  | _ => none

/-- The items of a value that is an array. -/
def items? : Value → Option (List Value)
  | array items => some items
  | _ => none

/-- The entries of a value that is a tree. -/
def tree? : Value → Option Tree
  | tree entries => some entries
  | _ => none

/-- The greatest magnitude, fifty-three ones in binary, at which integers and floats do not part. -/
def greatestExact : Nat := 9007199254740991

/-- Write a float as a value: an integral float of moderate size as an integer, and one that is
not finite as null. -/
def ofFloat (x : Float) : Value :=
  match Binary.ofFloat? x with
  | none => null
  | some b =>
    match b.toInt? with
    | some n => if n.natAbs ≤ greatestExact then number (.int n) else number (.float x)
    | none => number (.float x)

end Value

/-- Write the result of arithmetic as a value. -/
def Number.toValue : Number → Value
  | .int n => .number (.int n)
  | .float x => Value.ofFloat x

namespace Tree

/-- Write a value at a key, which keeps its place if it is present and comes last if not. -/
def insert (key : String) (value : Value) : Tree → Tree
  | [] => [(key, value)]
  | (k, v) :: rest => if k = key then (key, value) :: rest else (k, v) :: insert key value rest

/-- The tree that writing entries one after the other leaves. -/
def ofEntries (entries : List (String × Value)) : Tree :=
  entries.foldl (fun t e => insert e.1 e.2 t) []

/-- A new key comes last. -/
theorem insert_of_not_mem {key : String} {value : Value} {t : Tree} (h : key ∉ t.map Prod.fst) :
    insert key value t = t ++ [(key, value)] := by
  induction t with
  | nil => rfl
  | cons e rest ih =>
    obtain ⟨k, v⟩ := e
    simp only [List.map_cons, List.mem_cons, not_or] at h
    rw [insert, if_neg (Ne.symm h.1), ih h.2, List.cons_append]

/-- Entries under distinct keys are written as they stand. -/
theorem foldl_insert_of_nodup (entries t : Tree) (h : ((t ++ entries).map Prod.fst).Nodup) :
    entries.foldl (fun t e => insert e.1 e.2 t) t = t ++ entries := by
  induction entries generalizing t with
  | nil => simp
  | cons e rest ih =>
    have hnew : e.1 ∉ t.map Prod.fst := by
      rw [List.map_append, List.nodup_append] at h
      exact fun hmem => h.2.2 _ hmem _ (List.mem_cons_self) rfl
    rw [List.foldl_cons, insert_of_not_mem hnew, ih]
    · simp
    · simpa using h

/-- A tree with distinct keys is what writing its entries leaves. -/
theorem ofEntries_of_nodup {entries : Tree} (h : (entries.map Prod.fst).Nodup) :
    ofEntries entries = entries := by
  simpa [ofEntries] using foldl_insert_of_nodup entries [] (by simpa using h)

/-- The weight of joined trees is the sum of their weights. -/
@[simp] theorem weight_append (t u : Tree) : weight (t ++ u) = weight t + weight u := by
  induction t with
  | nil => simp
  | cons e rest ih => simp only [List.cons_append, weight, ih]; omega

end Tree

end Overlay
