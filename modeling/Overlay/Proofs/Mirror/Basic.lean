import Overlay.Proofs.Key.Mention
import Overlay.Proofs.Reduce.Stability

/-!
# Mapping the items of arrays

An array at a key is a list of operands if the key spreads it, and otherwise one operand with items that
are data. Mapping the items changes this data and nothing else: no key, no number of operands, and not
which operands are trees. The second of two trees mirrors the first if it is the first with the items of
its arrays mapped; with the first tree come the custom operators that it mentions nowhere, so that keys are
read in the second as if there were none.
-/

namespace Overlay

mutual

/-- The value of a key with the items of all arrays among its operands mapped, and within its trees. The
items of an array that is spread are operands themselves. -/
def Value.mapItems (h : Value → Value) (spread : Bool) : Value → Value
  | .array items => .array (if spread then Value.mapItemsOfEach h items else items.map h)
  | .tree entries => .tree (Tree.mapItems h entries)
  | value => value

/-- Operands with the items of the arrays among them mapped, and within their trees. -/
def Value.mapItemsOfEach (h : Value → Value) : List Value → List Value
  | [] => []
  | operand :: rest => operand.mapItems h false :: Value.mapItemsOfEach h rest

/-- A tree with the items of all arrays among the operands of its keys mapped. -/
def Tree.mapItems (h : Value → Value) : Tree → Tree
  | [] => []
  | (key, value) :: rest =>
    (key, value.mapItems h (Key.parse .empty key).spread) :: Tree.mapItems h rest

end

section MapItems

variable {h : Value → Value}

/-- The items of operands are mapped one operand after the other. -/
theorem Value.mapItemsOfEach_eq_map (operands : Operands) :
    mapItemsOfEach h operands = operands.map (mapItems h false) := by
  induction operands with
  | nil => rfl
  | cons operand rest ih => rw [mapItemsOfEach, ih, List.map_cons]

/-- The items in a tree are mapped one key after the other. -/
theorem Tree.mapItems_eq_map (t : Tree) :
    mapItems h t = t.map fun e => (e.1, e.2.mapItems h (Key.parse .empty e.1).spread) := by
  induction t with
  | nil => rfl
  | cons e rest ih => rw [mapItems, ih, List.map_cons]

/-- The items of an array that is spread are operands, and its operands have the items that are mapped. -/
example : Tree.mapItems (fun _ => .null)
    [("#+>a", .array [.array [.bool true, .array []], .bool true]), ("a", .array [.array [.bool true]])] =
      [("#+>a", .array [.array [.null, .null], .bool true]), ("a", .array [.null])] := by
  decide +kernel

/-- A key whose items are mapped gives its operands with their items mapped. -/
theorem ofValue_mapItems (spread : Bool) (value : Value) :
    Operands.ofValue spread (value.mapItems h spread) =
      (Operands.ofValue spread value).map (Value.mapItems h false) := by
  cases spread with
  | true =>
    cases value with
    | array items => exact Value.mapItemsOfEach_eq_map items
    | _ => rfl
  | false => rfl

mutual

/-- Mapping every item to itself changes no value. -/
@[simp] theorem Value.mapItems_id (spread : Bool) : ∀ v : Value, v.mapItems id spread = v
  | .array items => by cases spread <;> simp [Value.mapItems, Value.mapItemsOfEach_id items]
  | .tree entries => by rw [Value.mapItems, Tree.mapItems_id entries]
  | .null | .bool _ | .number _ | .string _ => rfl

/-- Mapping every item to itself changes no operands. -/
@[simp] theorem Value.mapItemsOfEach_id :
    ∀ operands : List Value, Value.mapItemsOfEach id operands = operands
  | [] => rfl
  | operand :: rest => by
    rw [Value.mapItemsOfEach, Value.mapItems_id false operand, Value.mapItemsOfEach_id rest]

/-- Mapping every item to itself changes no tree. -/
@[simp] theorem Tree.mapItems_id : ∀ t : Tree, Tree.mapItems id t = t
  | [] => rfl
  | (key, value) :: rest => by rw [Tree.mapItems, Value.mapItems_id _ value, Tree.mapItems_id rest]

end

end MapItems

section Mirrored

variable (table : OperatorTable) (h : Value → Value)

/-- A value that mentions no custom operator of a table in any key, and the same value with the items of
its operands mapped. -/
structure Value.Mirrored (spread : Bool) (v w : Value) : Prop where
  unmentioned : ∀ key ∈ v.allKeys, table.Unmentioned key.toList
  eq : w = v.mapItems h spread

/-- A tree that mentions no custom operator of a table in any key, and the same tree with the items of its
operands mapped. -/
structure Tree.Mirrored (t u : Tree) : Prop where
  unmentioned : ∀ key ∈ t.allKeys, table.Unmentioned key.toList
  eq : u = t.mapItems h

/-- An entry that mentions no custom operator of a table in any key, and the same entry with the items of
its operands mapped. -/
structure EntryMirrored (e f : String × Value) : Prop where
  key_eq : f.1 = e.1
  unmentioned : table.Unmentioned e.1.toList
  value : Value.Mirrored table h (Key.parse .empty e.1).spread e.2 f.2

/-- Operands that mention no custom operator of a table, and the same operands with their items mapped. -/
abbrev OperandsMirrored (operands mirrored : Operands) : Prop :=
  List.Forall₂ (Value.Mirrored table h false) operands mirrored

/-- Items of an array that mention no custom operator of a table, and the same items mapped. -/
abbrev ItemsMirrored (items mapped : List Value) : Prop :=
  Value.Mirrored table h false (.array items) (.array mapped)

end Mirrored

section Views

variable {table : OperatorTable} {h : Value → Value} {spread : Bool}

/-- A tree is mirrored as a value if it is mirrored. -/
theorem mirrored_tree_iff {t u : Tree} :
    Value.Mirrored table h spread (.tree t) (.tree u) ↔ Tree.Mirrored table h t u := by
  constructor
  · intro htu
    exact ⟨htu.unmentioned, Value.tree.inj htu.eq⟩
  · intro htu
    exact ⟨htu.unmentioned, by rw [htu.eq, Value.mapItems]⟩

/-- A tree and its mirror have the same keys in order, with mirrored values. -/
theorem mirrored_iff_forall₂ {t u : Tree} :
    Tree.Mirrored table h t u ↔ List.Forall₂ (EntryMirrored table h) t u := by
  constructor
  · rintro ⟨hkeys, rfl⟩
    rw [Tree.mapItems_eq_map, List.forall₂_map_right_iff, List.forall₂_same]
    intro e he
    refine ⟨rfl, hkeys e.1 (OperatorTable.mem_allKeys.2 ⟨e, he, .inl rfl⟩), fun key hkey => ?_, rfl⟩
    exact hkeys key (OperatorTable.mem_allKeys.2 ⟨e, he, .inr hkey⟩)
  · intro htu
    induction htu with
    | nil => exact ⟨fun _ hkey => absurd hkey List.not_mem_nil, rfl⟩
    | @cons e f t u hef _ ih =>
      obtain ⟨key, value⟩ := e
      obtain ⟨key', value'⟩ := f
      obtain ⟨rfl, hkey, hvalue⟩ := hef
      refine ⟨fun k hk => ?_, by rw [Tree.mapItems, ih.eq, ← hvalue.eq]⟩
      rw [Tree.allKeys, List.mem_cons, List.mem_append] at hk
      rcases hk with rfl | hk | hk
      · exact hkey
      · exact hvalue.unmentioned k hk
      · exact ih.unmentioned k hk

/-- The operands that a value gives are mirrored by those of its mirror. -/
theorem Value.Mirrored.ofValue {v w : Value} (hvw : Value.Mirrored table h spread v w) :
    OperandsMirrored table h (Operands.ofValue spread v) (Operands.ofValue spread w) := by
  rw [hvw.eq, ofValue_mapItems, OperandsMirrored, List.forall₂_map_right_iff, List.forall₂_same]
  intro operand hoperand
  exact ⟨fun key hkey => hvw.unmentioned key (OperatorTable.mem_allKeys_of_mem_ofValue hoperand hkey), rfl⟩

/-- Operands are mirrored one by one. -/
theorem operandsMirrored_iff {operands mirrored : Operands} :
    OperandsMirrored table h operands mirrored ↔
      (∀ key ∈ Value.allKeysOfItems operands, table.Unmentioned key.toList) ∧
        mirrored = operands.map (Value.mapItems h false) := by
  constructor
  · intro ho
    induction ho with
    | nil => exact ⟨fun _ hkey => absurd hkey List.not_mem_nil, rfl⟩
    | cons hfirst _ ih =>
      refine ⟨fun key hkey => ?_, by rw [List.map_cons, ← hfirst.eq, ih.2]⟩
      rcases List.mem_append.1 hkey with hkey | hkey
      · exact hfirst.unmentioned key hkey
      · exact ih.1 key hkey
  · rintro ⟨hkeys, rfl⟩
    rw [OperandsMirrored, List.forall₂_map_right_iff, List.forall₂_same]
    intro operand hoperand
    exact ⟨fun key hkey => hkeys key (OperatorTable.mem_allKeysOfItems.2 ⟨operand, hoperand, hkey⟩), rfl⟩

/-- The collection of operands is mirrored by that of their mirrors. -/
theorem mirrored_collection {operands mirrored : Operands}
    (ho : OperandsMirrored table h operands mirrored) :
    Value.Mirrored table h true (.array operands) (.array mirrored) := by
  obtain ⟨hkeys, rfl⟩ := operandsMirrored_iff.1 ho
  exact ⟨hkeys, by rw [Value.mapItems, if_pos rfl, Value.mapItemsOfEach_eq_map]⟩

/-- The value that holds operands is mirrored by the value that holds their mirrors. -/
theorem mirrored_toValue? {operands mirrored : Operands} (ho : OperandsMirrored table h operands mirrored) :
    Option.Rel (fun held held' => held'.1 = held.1 ∧ Value.Mirrored table h held.1 held.2 held'.2)
      operands.toValue? mirrored.toValue? := by
  cases ho with
  | nil => exact .none
  | cons hfirst hrest =>
    cases hrest with
    | nil => exact .some ⟨rfl, hfirst⟩
    | cons hsecond hrest => exact .some ⟨rfl, mirrored_collection (.cons hfirst (.cons hsecond hrest))⟩

/-- The tree that a value is is mirrored by that of its mirror. -/
theorem Value.Mirrored.tree? {v w : Value} (hvw : Value.Mirrored table h spread v w) :
    Option.Rel (Tree.Mirrored table h) v.tree? w.tree? := by
  cases v with
  | tree t =>
    obtain rfl : w = _ := hvw.eq
    exact .some (mirrored_tree_iff.1 hvw)
  | _ =>
    obtain rfl : w = _ := hvw.eq
    exact .none

/-- The number that a value is is that of its mirror. -/
theorem Value.Mirrored.number? {v w : Value} (hvw : Value.Mirrored table h spread v w) :
    w.number? = v.number? := by
  rw [hvw.eq]
  cases v <;> rfl

/-- The items of a value that is an array are mirrored by those of its mirror. -/
theorem Value.Mirrored.items? {v w : Value} (hvw : Value.Mirrored table h false v w) :
    Option.Rel (ItemsMirrored table h) v.items? w.items? := by
  cases v with
  | array items =>
    obtain rfl : w = _ := hvw.eq
    exact .some hvw
  | _ =>
    obtain rfl : w = _ := hvw.eq
    exact .none

/-- The arrays among operands are mirrored by those among their mirrors. -/
theorem mirrored_arrays {operands mirrored : Operands} (ho : OperandsMirrored table h operands mirrored) :
    List.Forall₂ (ItemsMirrored table h) (operands.filterMap Value.items?)
      (mirrored.filterMap Value.items?) :=
  List.rel_filterMap (fun _ _ hvw => hvw.items?) ho

/-- The items of two arrays as one are mirrored by those of the mirrors. -/
theorem mirrored_items_append {items items' mapped mapped' : List Value}
    (hi : ItemsMirrored table h items mapped) (hi' : ItemsMirrored table h items' mapped') :
    ItemsMirrored table h (items ++ items') (mapped ++ mapped') := by
  refine ⟨fun key hkey => ?_, ?_⟩
  · obtain ⟨item, hitem, hkey⟩ := OperatorTable.mem_allKeysOfItems.1 hkey
    rcases List.mem_append.1 hitem with hitem | hitem
    · exact hi.unmentioned key (OperatorTable.mem_allKeysOfItems.2 ⟨item, hitem, hkey⟩)
    · exact hi'.unmentioned key (OperatorTable.mem_allKeysOfItems.2 ⟨item, hitem, hkey⟩)
  · rw [Value.array.inj hi.eq, Value.array.inj hi'.eq]
    simp [Value.mapItems]

/-- The items of arrays as one are mirrored by those of the mirrors. -/
theorem mirrored_items_flatten {arrays mirrored : List (List Value)}
    (ha : List.Forall₂ (ItemsMirrored table h) arrays mirrored) :
    ItemsMirrored table h arrays.flatten mirrored.flatten := by
  induction ha with
  | nil => exact ⟨fun _ hkey => absurd hkey List.not_mem_nil, rfl⟩
  | cons hfirst _ ih => exact mirrored_items_append hfirst ih

end Views

end Overlay
