import Overlay.Plain
import Overlay.Proofs.Mirror.Level

/-!
# What stacking and reduction do not look at

Two things follow from reducing mirrored trees in step. With the items of arrays left as they are, a tree is
its own mirror: custom operators that no key of the data mentions make no difference to it, whichever
they are. And with no custom operators in the table every tree has a mirror for every map of items: these
are carried along, put together and given up, and never looked into.
-/

namespace Overlay

namespace OperatorTable

variable {table : OperatorTable} {t u : Tree} {layers : List Tree}

section Unmentioned

/-- A tree that mentions no custom operator of a table is its own mirror, and has no other, when items are
left as they are. -/
theorem mirrored_id_iff :
    Tree.Mirrored table id t u ↔ (∀ key ∈ t.allKeys, table.Unmentioned key.toList) ∧ u = t := by
  constructor
  · rintro ⟨hkeys, hu⟩
    exact ⟨hkeys, by rw [hu, Tree.mapItems_id]⟩
  · rintro ⟨hkeys, rfl⟩
    exact ⟨hkeys, (Tree.mapItems_id u).symm⟩

/-- Layers that mention no custom operator of a table are their own mirrors. -/
theorem forall₂_mirrored_id (h : ∀ t ∈ layers, ∀ key ∈ t.allKeys, table.Unmentioned key.toList) :
    List.Forall₂ (Tree.Mirrored table id) layers layers :=
  List.forall₂_same.2 fun t ht => mirrored_id_iff.2 ⟨h t ht, rfl⟩

mutual

/-- The plain part of a value that mentions no custom operator of a table is what it is without the
table. -/
theorem plainValuePart_of_unmentioned : ∀ v : Value,
    (∀ key ∈ v.allKeys, table.Unmentioned key.toList) → table.plainValuePart v = empty.plainValuePart v
  | .tree entries, h => by
    rw [plainValuePart, plainValuePart, plainEntries_of_unmentioned entries h]
  | .array _, _ | .null, _ | .bool _, _ | .number _, _ | .string _, _ => rfl

/-- The plain entries of a tree that mentions no custom operator of a table are what they are without the
table. -/
theorem plainEntries_of_unmentioned : ∀ t : Tree,
    (∀ key ∈ t.allKeys, table.Unmentioned key.toList) → table.plainEntries t = empty.plainEntries t
  | [], _ => rfl
  | (raw, value) :: rest, h => by
    have hraw := h raw (by simp [Tree.allKeys])
    have hvalue := plainValuePart_of_unmentioned value fun key hkey => h key (by simp [Tree.allKeys, hkey])
    have hrest := plainEntries_of_unmentioned rest fun key hkey => h key (by simp [Tree.allKeys, hkey])
    rw [plainEntries, plainEntries, Key.parse_of_unmentioned hraw, hvalue, hrest]

end

/-- The plain part of a tree that mentions no custom operator of a table is what it is without the table. -/
theorem plainPart_of_unmentioned (h : ∀ key ∈ t.allKeys, table.Unmentioned key.toList) :
    table.plainPart t = empty.plainPart t := by
  rw [plainPart, plainPart, plainEntries_of_unmentioned t h]

variable (h : ∀ t ∈ layers, ∀ key ∈ t.allKeys, table.Unmentioned key.toList)

include h

/-- Layers that mention no custom operator of a table are stacked as without the table. -/
theorem stack_of_unmentioned : table.stack layers = empty.stack layers :=
  (mirrored_id_iff.1 (mirrored_stack (forall₂_mirrored_id h))).2.symm

/-- Layers that mention no custom operator of a table reduce as without the table, to a tree that mentions
none either. -/
theorem reduceLayers_of_unmentioned :
    ∃ r, empty.reduceLayers layers = some r ∧ table.reduceLayers layers = some r ∧
      ∀ key ∈ r.allKeys, table.Unmentioned key.toList := by
  obtain ⟨r, hr, -⟩ := exists_reduce (empty.stack layers)
  have hstack := mirrored_stack (forall₂_mirrored_id h)
  have hreduced := mirrored_reduceWithin table id ((empty.stack layers).weight + spareDepth) _ _ hstack
  change Option.Rel _ _ (empty.reduce (empty.stack layers)) at hreduced
  rw [hr] at hreduced
  obtain ⟨s, hs, hsr⟩ := exists_of_rel_some hreduced
  obtain ⟨hkeys, rfl⟩ := mirrored_id_iff.1 hsr
  refine ⟨r, hr, ?_, hkeys⟩
  -- The depth that a reduction is given depends on the weight of the stacked tree, which is the same.
  rw [reduceLayers, reduce]
  rwa [stack_of_unmentioned h] at hs ⊢

end Unmentioned

/-- Custom operators have no part in data that does not mention them: under two tables whose names stand in
no key of the layers, at any depth and within arrays too, the layers are stacked and reduced to the same
ordered trees, and the reduced tree and the layers have the same plain parts. -/
theorem unmentioned_operators_have_no_effect (table table' : OperatorTable) (layers : List Tree)
    (h : ∀ t ∈ layers, ∀ key ∈ t.allKeys, ∀ name,
      table.contains name = true ∨ table'.contains name = true → ¬ Mentions key.toList name) :
    table.stack layers = table'.stack layers ∧
      (∃ r, table.reduceLayers layers = some r ∧ table'.reduceLayers layers = some r) ∧
      (∀ t ∈ layers, table.plainPart t = table'.plainPart t) ∧
      ∃ r, table.reduceLayersToPlain layers = some r ∧ table'.reduceLayersToPlain layers = some r := by
  have hfirst : ∀ t ∈ layers, ∀ key ∈ t.allKeys, table.Unmentioned key.toList :=
    fun t ht key hkey name hname => h t ht key hkey name (.inl hname)
  have hsecond : ∀ t ∈ layers, ∀ key ∈ t.allKeys, table'.Unmentioned key.toList :=
    fun t ht key hkey name hname => h t ht key hkey name (.inr hname)
  obtain ⟨r, hempty, hr, hkeys⟩ := reduceLayers_of_unmentioned hfirst
  obtain ⟨s, hempty', hs, hkeys'⟩ := reduceLayers_of_unmentioned hsecond
  obtain rfl := Option.some.inj (hempty.symm.trans hempty')
  refine ⟨(stack_of_unmentioned hfirst).trans (stack_of_unmentioned hsecond).symm, ⟨r, hr, hs⟩,
    fun t ht => ?_, empty.plainPart r, ?_, ?_⟩
  · exact (plainPart_of_unmentioned (hfirst t ht)).trans (plainPart_of_unmentioned (hsecond t ht)).symm
  · rw [reduceLayersToPlain, hr, Option.map_some, plainPart_of_unmentioned hkeys]
  · rw [reduceLayersToPlain, hs, Option.map_some, plainPart_of_unmentioned hkeys']

/-- Keys with other names in parentheses, with names of the tables that do not stand between two parentheses
of their own, and with escapes, beside merges and collections, with a tree within an array. -/
theorem unmentioned_operators_have_no_effect_on_lookalikes :
    let table : OperatorTable := ⟨[("top", ⟨5, fun value operands => (operands.head?.or value, [])⟩),
      ("cut", ⟨-5, fun value _ => (value, [])⟩)], by decide⟩
    let table' : OperatorTable := ⟨[("top", ⟨2000, fun _ operands => (none, operands)⟩)], by decide⟩
    let layers : List Tree := [[("hp", .number (.int 7)), ("(cap)hp", .null), ("(top", .bool true),
        ("aura", .tree [("#+>runes", .array [.array [.string "a"], .array [.tree [("(cap)x", .null)]]]),
          ("heat", .number (.int 1))])],
      [("*>aura", .tree [("()*heat", .null), ("runes", .array []), ("+heat", .number (.int 2))]),
        ("+hp", .number (.int 3)), ("()()cut)", .number (.int 1)),
        ("*>", .tree [("(#cap)hp", .string "s")])],
      [("#+hp", .array [.number (.int 4)]), ("()(stop)", .string "t")]]
    let r : Tree := [("hp", .number (.int 14)), ("(cap)hp", .null), ("(top", .bool true),
      ("aura", .tree [("runes", .array [.string "a", .tree [("(cap)x", .null)]]),
        ("heat", .number (.int 3)), ("()*heat", .null)]), ("()()cut)", .number (.int 1)),
      ("(stop)", .string "t"), ("(#cap)hp", .string "s")]
    table.reduceLayers layers = some r ∧ table'.reduceLayers layers = some r := by
  intro table table' layers r
  have hkeys : ∀ t ∈ layers, ∀ key ∈ t.allKeys,
      table.Unmentioned key.toList ∧ table'.Unmentioned key.toList := by decide +kernel
  have hreduced : table.reduceLayers layers = some r := by decide +kernel
  obtain ⟨-, ⟨s, hs, hs'⟩, -, -⟩ := unmentioned_operators_have_no_effect table table' layers
    fun t ht key hkey name hname => hname.elim ((hkeys t ht key hkey).1 name) ((hkeys t ht key hkey).2 name)
  obtain rfl := Option.some.inj (hs.symm.trans hreduced)
  exact ⟨hs, hs'⟩

/-- Arrays are atomic: without custom operators, layers in which the items of all arrays among the operands
are mapped reduce to what the layers reduce to with the items mapped there. -/
theorem array_items_are_data (h : Value → Value) (layers : List Tree) :
    ∃ r, empty.reduceLayers layers = some r ∧
      empty.reduceLayers (layers.map (Tree.mapItems h)) = some (Tree.mapItems h r) := by
  have hlayers : List.Forall₂ (Tree.Mirrored empty h) layers (layers.map (Tree.mapItems h)) := by
    rw [List.forall₂_map_right_iff, List.forall₂_same]
    exact fun t _ => ⟨fun key _ => unmentioned_empty key.toList, rfl⟩
  obtain ⟨r, hr, -⟩ := exists_reduce (empty.stack layers)
  obtain ⟨depth, hdepth⟩ := reduces_of_reduce hr
  have hreduced := mirrored_reduceWithin empty h depth _ _ (mirrored_stack hlayers)
  rw [hdepth] at hreduced
  obtain ⟨s, hs, hrs⟩ := exists_of_some_rel hreduced
  exact ⟨r, hr, reduces_iff_reduce.1 ⟨depth, hrs.eq ▸ hs⟩⟩

end OperatorTable

end Overlay
