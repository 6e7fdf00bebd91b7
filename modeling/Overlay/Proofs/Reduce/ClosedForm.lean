import Overlay.Proofs.Reduce.Builtin
import Overlay.Proofs.Reduce.Locality

/-!
# What the central operators come to

Products, sums and joined arrays have a closed form. Of all factors at a base key there is one
product, of all summands one sum, and the arrays on either side are joined into one; a number is
multiplied and then added to, an array is put between the joined ones, and what does not suit the
value stands beside it, one entry for each operator. Neither wrongly typed operands nor the order and
the layers in which the operators are declared have a part in it.

The arithmetic is that of integers as long as all numbers are words and no step of it leaves them.
-/

namespace Overlay

/-- The integer that a value is. -/
def Value.int? : Value → Option Int
  | .number (.int n) => some n
  | _ => none

/-- The operands of the central operators that count, by operator. -/
structure CentralOperands where
  factors : List Int
  summands : List Int
  front : List (List Value)
  back : List (List Value)

namespace CentralOperands

variable (c : CentralOperands)

/-- The product of all factors. -/
def product : Int := c.factors.foldl (· * ·) 1

/-- The sum of all summands. -/
def sum : Int := c.summands.foldl (· + ·) 0

/-- The arrays that are put in front, the last one first. -/
def joinedFront : List Value := c.front.reverse.flatten

/-- The arrays that are put at the end, the first one first. -/
def joinedBack : List Value := c.back.flatten

/-- The value that the central operators make of a value. -/
def applyTo : Option Value → Option Value
  | some (.number (.int n)) => some (.number (.int (n * c.product + c.sum)))
  | some (.array items) => some (.array (c.joinedFront ++ items ++ c.joinedBack))
  | value => value

/-- The markers and operands that are left of arithmetic beside a value. -/
def numbersLeft (value : Option Value) : List (String × Value) :=
  if (value.bind Value.number?).isSome then []
  else (if c.factors = [] then [] else [("*", .number (.int c.product))]) ++
    if c.summands = [] then [] else [("+", .number (.int c.sum))]

/-- The markers and operands that are left of the joining of arrays beside a value. -/
def arraysLeft (value : Option Value) : List (String × Value) :=
  if (value.bind Value.items?).isSome then []
  else (if c.front = [] then [] else [("<+", .array c.joinedFront)]) ++
    if c.back = [] then [] else [("+>", .array c.joinedBack)]

/-- The entries of a base key: the value at the plain key, and what is left beside it. -/
def entries (table : OperatorTable) (base : String) (value : Option Value) : Tree :=
  ((c.applyTo value).toList.map fun v => ((Key.plain base).encode table, v)) ++
    (c.numbersLeft value ++ c.arraysLeft value).map fun left => (left.1 ++ base, left.2)

end CentralOperands

namespace OperatorTable

variable (table : OperatorTable) (base : String) (t : Tree)

/-- The operands that count at a base key. -/
def centralOperands : CentralOperands where
  factors := (table.operandsAt ⟨.multiply, base⟩ t).filterMap Value.int?
  summands := (table.operandsAt ⟨.add, base⟩ t).filterMap Value.int?
  front := (table.operandsAt ⟨.prepend, base⟩ t).filterMap Value.items?
  back := (table.operandsAt ⟨.append, base⟩ t).filterMap Value.items?

/-- The value that is assigned at a base key. -/
def assignedAt : Option Value := (table.operandsAt ⟨.assign, base⟩ t).getLast?

/-- Arithmetic that stays exact: all numbers at a base key are words, all products and sums on the
way to the last are, and so is what a value that is a number becomes. -/
structure ExactAt : Prop where
  operands : ∀ o ∈ [Operator.multiply, .add], ∀ x, .number x ∈ table.operandsAt ⟨o, base⟩ t →
    ∃ n, x = .int n ∧ IsWord n
  products : ∀ k ≤ (table.centralOperands base t).factors.length,
    IsWord (((table.centralOperands base t).factors.take k).foldl (· * ·) 1)
  sums : ∀ k ≤ (table.centralOperands base t).summands.length,
    IsWord (((table.centralOperands base t).summands.take k).foldl (· + ·) 0)
  value : ∀ x, table.assignedAt base t = some (.number x) → ∃ n, x = .int n ∧ IsWord n ∧
    IsWord (n * (table.centralOperands base t).product) ∧
      IsWord (n * (table.centralOperands base t).product + (table.centralOperands base t).sum)

end OperatorTable

section Folding

variable {exact : Int → Int → Int} {rounded : Float → Float → Float} {unit : Int} {ns : List Int}
  {value : Option Value} {operands : Operands}

/-- Words that are folded into words all along are folded exactly. -/
theorem foldl_combine_int (hwords : ∀ n ∈ ns, IsWord n)
    (hprefixes : ∀ k ≤ ns.length, IsWord ((ns.take k).foldl exact unit)) :
    (ns.map Number.int).foldl (Number.combine exact rounded) (.int unit) =
      .int (ns.foldl exact unit) := by
  induction ns using List.reverseRecOn with
  | nil => rfl
  | append_singleton ns n ih =>
    have hlast := hprefixes (ns ++ [n]).length (Nat.le_refl _)
    have hbefore := hprefixes ns.length (by simp)
    rw [List.take_length, List.foldl_concat] at hlast
    rw [List.take_left] at hbefore
    have hfold := ih (fun m hm => hwords m (List.mem_append_left _ hm)) fun k hk => by
      have hprefix := hprefixes k (by rw [List.length_append]; omega)
      rwa [List.take_append_of_le_length hk] at hprefix
    rw [List.map_append, List.map_singleton, List.foldl_concat, hfold, List.foldl_concat,
      Number.combine_int hbefore (hwords n (by simp)) hlast]

/-- Where all numbers among operands are integers, these are the numbers. -/
theorem filterMap_number? (h : ∀ x, .number x ∈ operands → ∃ n, x = .int n ∧ IsWord n) :
    operands.filterMap Value.number? = (operands.filterMap Value.int?).map Number.int ∧
      ∀ n ∈ operands.filterMap Value.int?, IsWord n := by
  induction operands with
  | nil => simp
  | cons v rest ih =>
    obtain ⟨hnumbers, hwords⟩ := ih fun x hx => h x (List.mem_cons_of_mem _ hx)
    cases v with
    | number x =>
      obtain ⟨n, rfl, hn⟩ := h x List.mem_cons_self
      rw [List.filterMap_cons_some (f := Value.number?) rfl,
        List.filterMap_cons_some (f := Value.int?) rfl, hnumbers]
      exact ⟨rfl, List.forall_mem_cons.2 ⟨hn, hwords⟩⟩
    | _ => exact ⟨hnumbers, hwords⟩

/-- Operands whose numbers are words, and are folded into words all along. -/
structure FoldsExactly (exact : Int → Int → Int) (unit : Int) (operands : Operands) : Prop where
  words : ∀ x, .number x ∈ operands → ∃ n, x = .int n ∧ IsWord n
  prefixes : ∀ k ≤ (operands.filterMap Value.int?).length,
    IsWord (((operands.filterMap Value.int?).take k).foldl exact unit)

/-- Exactness is tested operand by operand. -/
theorem foldsExactly_iff : FoldsExactly exact unit operands ↔
    (∀ v ∈ operands, v.number?.isSome = true → ∃ n ∈ v.int?, IsWord n) ∧
      ∀ k ≤ (operands.filterMap Value.int?).length,
        IsWord (((operands.filterMap Value.int?).take k).foldl exact unit) := by
  constructor
  · rintro ⟨hwords, hprefixes⟩
    refine ⟨fun v hv hnumber => ?_, hprefixes⟩
    obtain ⟨x, hx⟩ := Option.isSome_iff_exists.1 hnumber
    cases v with
    | number y =>
      obtain ⟨n, rfl, hn⟩ := hwords y hv
      exact ⟨n, rfl, hn⟩
    | _ => simp [Value.number?] at hx
  · rintro ⟨hwords, hprefixes⟩
    refine ⟨fun x hx => ?_, hprefixes⟩
    obtain ⟨n, hn, hword⟩ := hwords _ hx rfl
    cases x with
    | int m => exact ⟨m, rfl, by rwa [Option.some.inj hn]⟩
    | float y => simp [Value.int?] at hn

instance : Decidable (FoldsExactly exact unit operands) :=
  decidable_of_iff _ foldsExactly_iff.symm

/-- The numbers among operands that are folded exactly are folded as integers. -/
theorem FoldsExactly.fold (h : FoldsExactly exact unit operands) (rounded : Float → Float → Float) :
    operands.filterMap Value.number? = (operands.filterMap Value.int?).map Number.int ∧
      ((operands.filterMap Value.int?).map Number.int).foldl (Number.combine exact rounded)
        (.int unit) = .int ((operands.filterMap Value.int?).foldl exact unit) ∧
      IsWord ((operands.filterMap Value.int?).foldl exact unit) := by
  obtain ⟨hnumbers, hwords⟩ := filterMap_number? h.words
  have hall := h.prefixes _ (Nat.le_refl _)
  rw [List.take_length] at hall
  exact ⟨hnumbers, foldl_combine_int hwords h.prefixes, hall⟩

/-- Numbers are folded into one, which is left beside a value that is no number. -/
theorem calculate_left {operation : Number → Number → Number} {m : Int}
    (hnumbers : operands.filterMap Value.number? = ns.map Number.int)
    (hfold : (ns.map Number.int).foldl operation (.int unit) = .int m)
    (hvalue : value.bind Value.number? = none) :
    calculate operation (.int unit) value operands =
      (value, if ns = [] then [] else [.number (.int m)]) := by
  unfold calculate
  rw [hnumbers]
  cases ns with
  | nil => rfl
  | cons n rest =>
    simp only [List.map_cons] at hfold ⊢
    rw [hvalue, hfold]
    rfl

/-- Numbers are folded into one, and a value that is an integer is combined with it. -/
theorem calculate_int {n : Int} (hunit : exact n unit = n) (hn : IsWord n)
    (hnumbers : operands.filterMap Value.number? = ns.map Number.int)
    (hfold : (ns.map Number.int).foldl (Number.combine exact rounded) (.int unit) =
      .int (ns.foldl exact unit))
    (hword : IsWord (ns.foldl exact unit)) (hresult : IsWord (exact n (ns.foldl exact unit))) :
    calculate (Number.combine exact rounded) (.int unit) (some (.number (.int n))) operands =
      (some (.number (.int (exact n (ns.foldl exact unit)))), []) := by
  unfold calculate
  rw [hnumbers]
  cases ns with
  | nil => simp [hunit]
  | cons k rest =>
    simp only [List.map_cons] at hfold ⊢
    rw [hfold]
    change (some (Number.combine exact rounded (.int n) (.int _)).toValue, []) = _
    rw [Number.combine_int hn hword hresult]
    rfl

/-- Arrays are joined, and left beside a value that is no array. -/
theorem spliceArrays_left (splice : List Value → List Value → List Value) (arrays : List (List Value))
    (hvalue : value.bind Value.items? = none) :
    spliceArrays splice arrays value =
      (value, if arrays = [] then [] else [.array arrays.flatten]) := by
  cases arrays with
  | nil => rfl
  | cons first rest =>
    match value with
    | some (.array items) => simp [Value.items?] at hvalue
    | none | some .null | some (.bool _) | some (.number _) | some (.string _) | some (.tree _) => rfl

/-- Arrays are joined and spliced into a value that is an array. -/
theorem spliceArrays_array {splice : List Value → List Value → List Value} {items : List Value}
    (hnone : splice items [] = items) (arrays : List (List Value)) :
    spliceArrays splice arrays (some (.array items)) =
      (some (.array (splice items arrays.flatten)), []) := by
  cases arrays with
  | nil => simp [spliceArrays, hnone]
  | cons first rest => rfl

end Folding

namespace OperatorTable

variable {table : OperatorTable} {base : String} {t : Tree}

/-- Exactness at a base key is tested operator by operator, and at the assigned value. -/
theorem exactAt_iff : table.ExactAt base t ↔
    Overlay.FoldsExactly (· * ·) 1 (table.operandsAt ⟨.multiply, base⟩ t) ∧
      Overlay.FoldsExactly (· + ·) 0 (table.operandsAt ⟨.add, base⟩ t) ∧
        ∀ v ∈ table.assignedAt base t, v.number?.isSome = true → ∃ n ∈ v.int?, IsWord n ∧
          IsWord (n * (table.centralOperands base t).product) ∧
            IsWord (n * (table.centralOperands base t).product + (table.centralOperands base t).sum) := by
  constructor
  · rintro ⟨hoperands, hproducts, hsums, hvalue⟩
    refine ⟨⟨hoperands .multiply (by simp), hproducts⟩, ⟨hoperands .add (by simp), hsums⟩,
      fun v hv hnumber => ?_⟩
    cases v with
    | number x =>
      obtain ⟨n, rfl, hn⟩ := hvalue x hv
      exact ⟨n, rfl, hn⟩
    | _ => simp [Value.number?] at hnumber
  · rintro ⟨hfactors, hsummands, hvalue⟩
    refine ⟨fun o ho => ?_, hfactors.prefixes, hsummands.prefixes, fun x hx => ?_⟩
    · rcases List.mem_pair.1 ho with rfl | rfl
      · exact hfactors.words
      · exact hsummands.words
    · obtain ⟨n, hn, hword⟩ := hvalue _ hx rfl
      cases x with
      | int m => exact ⟨m, rfl, by rwa [Option.some.inj hn]⟩
      | float y => simp [Value.int?] at hn

instance : Decidable (table.ExactAt base t) := decidable_of_iff _ exactAt_iff.symm

section Applied

variable {n : Int} (h : table.ExactAt base t)

include h

/-- The factors are folded into their product. -/
theorem ExactAt.fold_factors :
    (table.operandsAt ⟨.multiply, base⟩ t).filterMap Value.number? =
        (table.centralOperands base t).factors.map Number.int ∧
      ((table.centralOperands base t).factors.map Number.int).foldl Number.mul (.int 1) =
        .int (table.centralOperands base t).product ∧
      IsWord (table.centralOperands base t).product := by
  have hexact : FoldsExactly (· * ·) 1 (table.operandsAt ⟨.multiply, base⟩ t) :=
    ⟨h.operands .multiply (by simp), h.products⟩
  exact hexact.fold (· * ·)

/-- The summands are folded into their sum. -/
theorem ExactAt.fold_summands :
    (table.operandsAt ⟨.add, base⟩ t).filterMap Value.number? =
        (table.centralOperands base t).summands.map Number.int ∧
      ((table.centralOperands base t).summands.map Number.int).foldl Number.add (.int 0) =
        .int (table.centralOperands base t).sum ∧
      IsWord (table.centralOperands base t).sum := by
  have hexact : FoldsExactly (· + ·) 0 (table.operandsAt ⟨.add, base⟩ t) :=
    ⟨h.operands .add (by simp), h.sums⟩
  exact hexact.fold (· + ·)

/-- Beside a value that is no number the product and the sum are left. -/
theorem ExactAt.apply_left (value : Option Value) (hvalue : value.bind Value.number? = none) :
    multiplyNumbers value (table.operandsAt ⟨.multiply, base⟩ t) =
        (value, if (table.centralOperands base t).factors = [] then []
          else [.number (.int (table.centralOperands base t).product)]) ∧
      addNumbers value (table.operandsAt ⟨.add, base⟩ t) =
        (value, if (table.centralOperands base t).summands = [] then []
          else [.number (.int (table.centralOperands base t).sum)]) := by
  obtain ⟨hfactors, hproduct, -⟩ := h.fold_factors
  obtain ⟨hsummands, hsum, -⟩ := h.fold_summands
  exact ⟨calculate_left hfactors hproduct hvalue, calculate_left hsummands hsum hvalue⟩

/-- A value that is a number is multiplied by the product, and the sum is added to it. -/
theorem ExactAt.apply_int (hvalue : table.assignedAt base t = some (.number (.int n))) :
    multiplyNumbers (some (.number (.int n))) (table.operandsAt ⟨.multiply, base⟩ t) =
        (some (.number (.int (n * (table.centralOperands base t).product))), []) ∧
      addNumbers (some (.number (.int (n * (table.centralOperands base t).product))))
          (table.operandsAt ⟨.add, base⟩ t) =
        (some (.number (.int (n * (table.centralOperands base t).product +
          (table.centralOperands base t).sum))), []) := by
  obtain ⟨hfactors, hproduct, hp⟩ := h.fold_factors
  obtain ⟨hsummands, hsum, hs⟩ := h.fold_summands
  obtain ⟨n', heq, hn, hmultiplied, hadded⟩ := h.value _ hvalue
  obtain rfl := Number.int.inj heq
  exact ⟨calculate_int (Int.mul_one n) hn hfactors hproduct hp hmultiplied,
    calculate_int (Int.add_zero _) hmultiplied hsummands hsum hs hadded⟩

end Applied

/-- Beside a value that is no array the joined arrays are left. -/
theorem splice_left (table : OperatorTable) (base : String) (t : Tree) (value : Option Value)
    (hvalue : value.bind Value.items? = none) :
    prependArrays value (table.operandsAt ⟨.prepend, base⟩ t) =
        (value, if (table.centralOperands base t).front = [] then []
          else [.array (table.centralOperands base t).joinedFront]) ∧
      appendArrays value (table.operandsAt ⟨.append, base⟩ t) =
        (value, if (table.centralOperands base t).back = [] then []
          else [.array (table.centralOperands base t).joinedBack]) := by
  refine ⟨?_, spliceArrays_left _ _ hvalue⟩
  rw [prependArrays, spliceArrays_left _ _ hvalue, List.filterMap_reverse]
  simp only [List.reverse_eq_nil_iff]
  rfl

/-- A value that is an array is put between the joined arrays. -/
theorem splice_array (table : OperatorTable) (base : String) (t : Tree) (items : List Value) :
    prependArrays (some (.array items)) (table.operandsAt ⟨.prepend, base⟩ t) =
        (some (.array ((table.centralOperands base t).joinedFront ++ items)), []) ∧
      appendArrays (some (.array ((table.centralOperands base t).joinedFront ++ items)))
          (table.operandsAt ⟨.append, base⟩ t) =
        (some (.array ((table.centralOperands base t).joinedFront ++ items ++
          (table.centralOperands base t).joinedBack)), []) := by
  refine ⟨(spliceArrays_array ?_ _).trans ?_, spliceArrays_array (List.append_nil _) _⟩
  · exact List.nil_append items
  · rw [List.filterMap_reverse]
    rfl

/-- The key of a central operator is its marker in front of the base key. -/
theorem encode_central (table : OperatorTable) {o : Operator} (ho : o.isCentral = true)
    (base : String) :
    Key.encode table ⟨o, base, false, false⟩ = String.ofList o.marker ++ base := by
  rw [← String.toList_inj]
  cases o <;> simp [Operator.isCentral] at ho <;>
    simp [Key.encode, Key.toChars, Key.hash, Operator.marker]

/-- What a central operator leaves stands at its marker and the base key. -/
theorem residueEntries_cons_ite {o : Operator} (ho : o.isCentral = true) {p : Prop} [Decidable p]
    (v : Value) (lefts : Contents) :
    table.residueEntries base ((o, if p then [] else [v]) :: lefts) =
      (if p then [] else [(String.ofList o.marker, v)]).map (fun left => (left.1 ++ base, left.2)) ++
        table.residueEntries base lefts := by
  by_cases hp : p
  · rw [if_pos hp, if_pos hp, residueEntries_cons_nil, List.map_nil, List.nil_append]
  · rw [if_neg hp, if_neg hp, residueEntries_cons_singleton, encode_central table ho]
    rfl

/-- The central operators at a base key, applied to a value, come to a result and leave operands at
some markers. -/
def CentralResult (table : OperatorTable) (base : String) (t : Tree) (value result : Option Value)
    (left : List (String × Value)) : Prop :=
  (table.applyEach value (table.centralContents base t)).1 = result ∧
    table.residueEntries base (table.applyEach value (table.centralContents base t)).2 =
      left.map fun l => (l.1 ++ base, l.2)

/-- A value that is neither a number nor an array is kept, and everything is left beside it. -/
theorem centralResult_kept (h : table.ExactAt base t) {value : Option Value}
    (hnumber : value.bind Value.number? = none) (hitems : value.bind Value.items? = none) :
    table.CentralResult base t value value ((table.centralOperands base t).numbersLeft value ++
      (table.centralOperands base t).arraysLeft value) := by
  have hresidue : table.residueEntries base [] = [] := rfl
  obtain ⟨hproduct, hsum⟩ := h.apply_left value hnumber
  obtain ⟨hfront, hback⟩ := splice_left table base t value hitems
  simp only [CentralResult, centralContents, Operator.centrals, List.map_cons, List.map_nil,
    applyEach, apply, hproduct, hsum, hfront, hback]
  rw [residueEntries_cons_ite rfl, residueEntries_cons_ite rfl, residueEntries_cons_ite rfl,
    residueEntries_cons_ite rfl, hresidue]
  simp [CentralOperands.numbersLeft, CentralOperands.arraysLeft, hnumber, hitems, Operator.marker]

/-- A number is multiplied and added to, and the arrays are left beside it. -/
theorem centralResult_int (h : table.ExactAt base t) {n : Int}
    (hvalue : table.assignedAt base t = some (.number (.int n))) :
    table.CentralResult base t (some (.number (.int n)))
      ((table.centralOperands base t).applyTo (some (.number (.int n))))
      ((table.centralOperands base t).arraysLeft (some (.number (.int n)))) := by
  have hresidue : table.residueEntries base [] = [] := rfl
  obtain ⟨hproduct, hsum⟩ := h.apply_int hvalue
  obtain ⟨hfront, hback⟩ := splice_left table base t (some (.number (.int
    (n * (table.centralOperands base t).product + (table.centralOperands base t).sum)))) rfl
  simp only [CentralResult, centralContents, Operator.centrals, List.map_cons, List.map_nil,
    applyEach, apply, hproduct, hsum, hfront, hback]
  rw [residueEntries_cons_nil, residueEntries_cons_nil, residueEntries_cons_ite rfl,
    residueEntries_cons_ite rfl, hresidue]
  simp [CentralOperands.arraysLeft, CentralOperands.applyTo, Value.items?, Operator.marker]

/-- An array is put between the joined arrays, and the product and the sum are left beside it. -/
theorem centralResult_array (h : table.ExactAt base t) (items : List Value) :
    table.CentralResult base t (some (.array items))
      ((table.centralOperands base t).applyTo (some (.array items)))
      ((table.centralOperands base t).numbersLeft (some (.array items))) := by
  have hresidue : table.residueEntries base [] = [] := rfl
  obtain ⟨hproduct, hsum⟩ := h.apply_left (some (.array items)) rfl
  obtain ⟨hfront, hback⟩ := splice_array table base t items
  simp only [CentralResult, centralContents, Operator.centrals, List.map_cons, List.map_nil,
    applyEach, apply, hproduct, hsum, hfront, hback]
  rw [residueEntries_cons_ite rfl, residueEntries_cons_ite rfl, residueEntries_cons_nil,
    residueEntries_cons_nil, hresidue]
  simp [CentralOperands.numbersLeft, CentralOperands.applyTo, Value.number?, Operator.marker]

/-- The central operators make of the assigned value what the closed form says, and leave what it says
beside the value. -/
theorem centralResult_assigned (h : table.ExactAt base t) :
    table.CentralResult base t (table.assignedAt base t)
      ((table.centralOperands base t).applyTo (table.assignedAt base t))
      ((table.centralOperands base t).numbersLeft (table.assignedAt base t) ++
        (table.centralOperands base t).arraysLeft (table.assignedAt base t)) := by
  match hvalue : table.assignedAt base t with
  | some (.number x) =>
    obtain ⟨n, rfl, -⟩ := h.value x hvalue
    exact centralResult_int h hvalue
  | some (.array items) =>
    have hnone : (table.centralOperands base t).arraysLeft (some (.array items)) = [] := rfl
    rw [hnone, List.append_nil]
    exact centralResult_array h items
  | none => exact centralResult_kept h rfl rfl
  | some .null | some (.bool _) | some (.string _) | some (.tree _) =>
    exact centralResult_kept h rfl rfl

section Reduced

variable {inner : Reduction}

/-- What the central operators make of a value that is no tree is no tree. -/
theorem applyTo_ne_tree (c : CentralOperands) {value : Option Value} (h : ∀ u, value ≠ some (.tree u))
    (u : Tree) : c.applyTo value ≠ some (.tree u) := by
  unfold CentralOperands.applyTo
  split
  · simp
  · simp
  · exact h u

/-- A value that is no tree is reduced already. -/
theorem reducePresent_of_ne_tree {value : Option Value} (h : ∀ u, value ≠ some (.tree u)) :
    reducePresent inner value = some value := by
  match value with
  | some (.tree u) => exact absurd rfl (h u)
  | none | some .null | some (.bool _) | some (.number _) | some (.string _) | some (.array _) => rfl

/-- A value that is a tree is reduced to a tree, and any other to itself. -/
theorem reducePresent_cases {value result : Option Value}
    (h : reducePresent inner value = some result) :
    (∃ u s, value = some (.tree u) ∧ inner u = some s ∧ result = some (.tree s)) ∨
      (∀ u, value ≠ some (.tree u)) ∧ result = value := by
  by_cases htree : ∃ u, value = some (.tree u)
  · obtain ⟨u, rfl⟩ := htree
    obtain ⟨v, hv, rfl⟩ := Option.map_eq_some_iff.1 h
    obtain ⟨s, hs, rfl⟩ := Option.map_eq_some_iff.1 hv
    exact .inl ⟨u, s, rfl, hs, rfl⟩
  · have hother : ∀ u, value ≠ some (.tree u) := fun u hu => htree ⟨u, hu⟩
    rw [reducePresent_of_ne_tree hother] at h
    exact .inr ⟨hother, (Option.some.inj h).symm⟩

/-- Where nothing but a value and central operators are declared, a base key is reduced from its last plain
operand by the central operators. -/
theorem reduceBase_of_central (hkinds : ∀ i ∈ table.identities t, i.base = base →
      i.operator = .assign ∨ i.operator.isCentral = true) :
    table.reduceBase inner base (numbered (contentsAt (table.declared t) base)) =
      (reducePresent inner (table.assignedAt base t)).bind fun start =>
        (table.settleCentral inner base t start).map fun final =>
          (final.toList.map fun v => ((Key.plain base).encode table, v)) ++
            table.residueEntries base (table.applyEach start (table.centralContents base t)).2 := by
  have hmem {c : Operator × Operands} (hc : c ∈ contentsAt (table.declared t) base) :
      c.1 = .assign ∨ c.1.isCentral = true := by
    obtain ⟨i, hi, hbase, -, rfl⟩ := (mem_contentsAt_iff table).1 hc
    exact hkinds i hi hbase
  have hcustom : ∀ c ∈ contentsAt (table.declared t) base, ∀ name, c.1 ≠ .custom name := by
    rintro c hc name hname
    rcases hmem hc with h | h <;> simp [hname, Operator.isCentral] at h
  have hnone (p : Operator → Bool) (hp : p .assign = false)
      (hp' : ∀ o, o.isCentral = true → p o = false) :
      (contentsAt (table.declared t) base).filter (fun c => p c.1) = [] := by
    refine List.filter_eq_nil_iff.2 fun c hc => ?_
    rcases hmem hc with h | h
    · simp [h, hp]
    · simp [hp' _ h]
  have hbelow : table.mergesBelow base t = [] := by
    rw [mergesBelow, hnone _ rfl fun o ho => by cases o <;> simp [Operator.isCentral] at ho <;> rfl]
    rfl
  have habove : table.mergesAbove base t = [] := by
    rw [mergesAbove, hnone _ rfl fun o ho => by cases o <;> simp [Operator.isCentral] at ho <;> rfl]
    rfl
  rw [reduceBase_of_builtin hcustom, hbelow, habove]
  exact Option.bind_congr fun start _ => Option.map_eq_bind.symm

/-- Where nothing but a value and central operators are declared, a base key is reduced to the closed
form. -/
theorem reduceBase_of_exact (hkinds : ∀ i ∈ table.identities t, i.base = base →
      i.operator = .assign ∨ i.operator.isCentral = true)
    (htree : ∀ u, table.assignedAt base t ≠ some (.tree u)) (h : table.ExactAt base t) :
    table.reduceBase inner base (numbered (contentsAt (table.declared t) base)) =
      some ((table.centralOperands base t).entries table base (table.assignedAt base t)) := by
  obtain ⟨hvalue, hleft⟩ := centralResult_assigned h
  have hsettle : table.settleCentral inner base t (table.assignedAt base t) = some
      ((table.centralOperands base t).applyTo (table.assignedAt base t)) := by
    rw [settleCentral]
    cases hnone : table.hasCentral base t with
    | true =>
      rw [if_pos rfl, hvalue]
      exact reducePresent_of_ne_tree (applyTo_ne_tree _ htree)
    | false => exact congrArg some ((applyEach_of_hasCentral_eq_false hnone _).1.symm.trans hvalue)
  rw [reduceBase_of_central hkinds, reducePresent_of_ne_tree htree, Option.bind_some, hsettle, hleft]
  rfl

end Reduced

/-- Stacking layers keeps what arithmetic has to stay exact for. -/
theorem ExactAt.stack {layers : List Tree} (h : table.ExactAt base layers.flatten) :
    table.ExactAt base (table.stack layers) ∧
      table.centralOperands base (table.stack layers) = table.centralOperands base layers.flatten ∧
      table.assignedAt base (table.stack layers) = table.assignedAt base layers.flatten := by
  have hoperands : table.centralOperands base (table.stack layers) =
      table.centralOperands base layers.flatten := by
    simp [centralOperands]
  have hassigned : table.assignedAt base (table.stack layers) =
      table.assignedAt base layers.flatten := by
    simp [assignedAt]
  refine ⟨⟨?_, ?_, ?_, ?_⟩, hoperands, hassigned⟩
  · simpa using h.operands
  · simpa only [hoperands] using h.products
  · simpa only [hoperands] using h.sums
  · simpa only [hoperands, hassigned] using h.value

/-- Closed form of the central operators: where a base key has no merges and no custom operators, and
its arithmetic stays exact, stacked layers are reduced to the value that all factors, summands and
arrays make of the last plain operand, with what does not suit it standing behind it, and to nothing
else at the base key. The base key does not keep the layers from being reduced either. -/
theorem central_operators_closed_form (table : OperatorTable) (layers : List Tree) (base : String)
    (hroot : ∀ i ∈ table.identities layers.flatten, i.isRootMerge = false)
    (hkinds : ∀ i ∈ table.identities layers.flatten, i.base = base →
      i.operator = .assign ∨ i.operator.isCentral = true)
    (htree : ∀ u, table.assignedAt base layers.flatten ≠ some (.tree u))
    (hexact : table.ExactAt base layers.flatten) :
    (∀ r, table.Reduces (table.stack layers) r →
        table.atBase base r = (table.centralOperands base layers.flatten).entries table base
          (table.assignedAt base layers.flatten)) ∧
      ((∃ r, table.Reduces ((table.stack layers).filter fun e => table.baseOf e != base) r) →
        ∃ r, table.Reduces (table.stack layers) r) := by
  have hmem (i : Identity) : i ∈ table.identities (table.stack layers) ↔
      i ∈ table.identities layers.flatten := by
    simp
  have hroot' : ∀ i ∈ table.identities (table.stack layers), i.isRootMerge = false :=
    fun i hi => hroot i ((hmem i).1 hi)
  obtain ⟨hexact', hoperands, hassigned⟩ := hexact.stack
  have hbase : table.Reduces (table.atBase base (table.stack layers))
      ((table.centralOperands base layers.flatten).entries table base
        (table.assignedAt base layers.flatten)) := by
    refine ⟨1, ?_⟩
    change table.reduceLevel (table.reduceWithin 0) _ = _
    rw [reduceLevel_atBase (rootContents_eq_nil table (isRootMerge_atBase hroot' base)),
      reduceBase_of_exact (fun i hi => hkinds i ((hmem i).1 hi)) (hassigned ▸ htree) hexact',
      hoperands, hassigned]
  exact ⟨fun r hr => (hr.atBase hroot' base).unique hbase,
    exists_reduces_of_rest hroot' ⟨_, hbase⟩⟩

/-- All central operators over two layers, with operands of the wrong type, collections and an array
that does not suit the value, beside a custom operator at another base key. -/
theorem central_operators_closed_form_over_layers :
    let table : OperatorTable := ⟨[("keep", ⟨0, fun value operands => (value, operands)⟩)], by decide⟩
    let layers : List Tree := [[("+hp", .number (.int 1)), ("<+hp", .array [.string "a"]),
        ("#*hp", .array [.number (.int 2), .string "x", .number (.int 3)]), ("(keep)o", .null)],
      [("hp", .number (.int 7)), ("+>hp", .array [.null]), ("+hp", .number (.int 5)),
        ("#<+hp", .array [.bool true, .array [.string "b"]])]]
    let written : Tree := [("hp", .number (.int 48)), ("<+hp", .array [.string "b", .string "a"]),
      ("+>hp", .array [.null])]
    ∃ r, table.Reduces (table.stack layers) r ∧ table.atBase "hp" r = written := by
  intro table layers written
  have hassigned : table.assignedAt "hp" layers.flatten = some (.number (.int 7)) := by
    decide +kernel
  have hexact : table.ExactAt "hp" layers.flatten := by decide +kernel
  obtain ⟨hclosed, hexists⟩ := central_operators_closed_form table layers "hp" (by decide +kernel)
    (by decide +kernel) (by simp [hassigned]) hexact
  obtain ⟨r, hr⟩ := hexists ⟨[("(keep)o", .null)], 1, by decide +kernel⟩
  have hwritten : (table.centralOperands "hp" layers.flatten).entries table "hp"
      (table.assignedAt "hp" layers.flatten) = written := by decide +kernel
  exact ⟨r, hr, (hclosed r hr).trans hwritten⟩

end OperatorTable

end Overlay
