import Mathlib.Data.List.Nodup
import Overlay.Proofs.FirstSeen
import Overlay.Proofs.Key.RoundTrip
import Overlay.Stack

/-!
# What stacking keeps

A stacked tree has one key for each identity of the layers, in the order in which the identities
are first seen, and each identity has all its operands in order. No two identities meet in one
key, because every key that is written in the stacked tree is read back as the identity it was
written for.
-/

namespace Overlay

namespace OperatorTable

variable (table : OperatorTable)

/-- The identity that a key contributes to. -/
def identityOf (raw : String) : Identity := (Key.parse table raw).identity

/-- The identities that the keys of a tree contribute to, in order. -/
def identities (t : Tree) : List Identity := t.map fun e => table.identityOf e.1

/-- The contributions of a tree to an identity, in order. -/
def membersAt (i : Identity) (t : Tree) : List Contribution :=
  (t.map (Contribution.ofEntry table)).filter fun c => c.identity == i

/-- The operands of an identity in a tree: those of its keys, joined in order. -/
def operandsAt (i : Identity) (t : Tree) : Operands :=
  (table.membersAt i t).flatMap Contribution.operands

/-- The entry that stacks all contributions of a tree to an identity. -/
def entryAt (t : Tree) (i : Identity) : String × Value :=
  Group.stacked table ⟨i, table.membersAt i t⟩

end OperatorTable

/-- Group members are contributions to the identity, as they are read, and there is at least
one. -/
structure Group.WellFormed (table : OperatorTable) (g : Group) : Prop where
  members_ne_nil : g.members ≠ []
  identity_eq : ∀ c ∈ g.members, c.identity = g.identity
  read : ∀ c ∈ g.members, Contribution.ofEntry table (c.raw, c.value) = c

namespace OperatorTable

variable {table : OperatorTable}

/-- No entries, no identities. -/
@[simp] theorem identities_nil : table.identities [] = [] := rfl

/-- The first entry gives the first identity. -/
@[simp] theorem identities_cons (e : String × Value) (t : Tree) :
    table.identities (e :: t) = table.identityOf e.1 :: table.identities t := rfl

/-- The identities of joined trees are joined. -/
@[simp] theorem identities_append (t u : Tree) :
    table.identities (t ++ u) = table.identities t ++ table.identities u := List.map_append

/-- The contributions of joined trees are joined. -/
@[simp] theorem membersAt_append (i : Identity) (t u : Tree) :
    table.membersAt i (t ++ u) = table.membersAt i t ++ table.membersAt i u := by
  simp [membersAt]

/-- The operands of joined trees are joined. -/
@[simp] theorem operandsAt_append (i : Identity) (t u : Tree) :
    table.operandsAt i (t ++ u) = table.operandsAt i t ++ table.operandsAt i u := by
  simp [operandsAt]

/-- The operands of layers are those of each layer, joined in order. -/
theorem operandsAt_flatten (i : Identity) (layers : List Tree) :
    table.operandsAt i layers.flatten = layers.flatMap (table.operandsAt i) := by
  induction layers with
  | nil => rfl
  | cons t rest ih => simp [ih]

/-- The operands of an identity come from the entries for it. -/
theorem operandsAt_eq_flatMap (table : OperatorTable) (i : Identity) (t : Tree) :
    table.operandsAt i t = (t.filter fun e => table.identityOf e.1 == i).flatMap
      fun e => (Contribution.ofEntry table e).operands := by
  rw [operandsAt, membersAt, List.filter_map, List.flatMap_map]
  rfl

/-- Leaving out entries for other identities leaves the operands. -/
theorem operandsAt_filter {p : Identity → Bool} {i : Identity} (hi : p i = true) (t : Tree) :
    table.operandsAt i (t.filter fun e => p (table.identityOf e.1)) = table.operandsAt i t := by
  rw [operandsAt_eq_flatMap, operandsAt_eq_flatMap, List.filter_filter]
  congr 1
  apply List.filter_congr
  intro e _
  rw [Bool.eq_iff_iff, Bool.and_eq_true, beq_iff_eq]
  exact ⟨And.left, fun h => ⟨h, h ▸ hi⟩⟩

/-- An identity occurs exactly when there is a contribution to it. -/
theorem membersAt_ne_nil_iff {i : Identity} {t : Tree} :
    table.membersAt i t ≠ [] ↔ i ∈ table.identities t := by
  constructor
  · intro h
    obtain ⟨c, hc⟩ := List.exists_mem_of_ne_nil _ h
    obtain ⟨hread, hidentity⟩ := List.mem_filter.1 hc
    obtain ⟨e, he, rfl⟩ := List.mem_map.1 hread
    exact List.mem_map.2 ⟨e, he, of_decide_eq_true hidentity⟩
  · intro h
    obtain ⟨e, he, hidentity⟩ := List.mem_map.1 h
    have hmem := List.mem_map_of_mem (f := Contribution.ofEntry table) he
    exact List.ne_nil_of_mem (List.mem_filter.2 ⟨hmem, decide_eq_true hidentity⟩)

/-- Nothing contributes to an identity that does not occur. -/
theorem membersAt_eq_nil {i : Identity} {t : Tree} (hi : i ∉ table.identities t) :
    table.membersAt i t = [] := by
  by_contra h
  exact hi (membersAt_ne_nil_iff.1 h)

/-- The contributions to an identity that occurs form a group. -/
theorem wellFormed_membersAt {i : Identity} {t : Tree} (h : i ∈ table.identities t) :
    Group.WellFormed table ⟨i, table.membersAt i t⟩ where
  members_ne_nil := membersAt_ne_nil_iff.2 h
  identity_eq c hc := by simpa using (List.mem_filter.1 hc).2
  read c hc := by
    obtain ⟨e, -, rfl⟩ := List.mem_map.1 (List.mem_filter.1 hc).1
    rfl

end OperatorTable

namespace Group

variable {table : OperatorTable} {g : Group}

/-- Several contributions become a collection. -/
theorem stacked_of_two_le (h : 2 ≤ g.members.length) :
    g.stacked table = (g.collectionKey table, .array g.operands) := by
  obtain ⟨i, members⟩ := g
  cases members with
  | nil => rfl
  | cons c rest =>
    cases rest with
    | nil => simp at h
    | cons d rest => rfl

/-- The key that collects the operands of a group is read back as its identity, to be spread. -/
theorem identity_parse_collectionKey (hg : g.WellFormed table) :
    (Key.parse table (g.collectionKey table)).identity = g.identity ∧
      (Key.parse table (g.collectionKey table)).spread = true := by
  obtain ⟨c, hc⟩ := List.exists_mem_of_ne_nil _ hg.members_ne_nil
  have hkey : c.key = Key.parse table c.raw := by rw [← hg.read c hc]; rfl
  have hidentity : g.identity.collection.identity = c.key.identity := (hg.identity_eq c hc).symm
  have hwritable : g.identity.collection.Writable table :=
    Key.writable_of_identity_eq hidentity (hkey ▸ Key.writable_parse table c.raw)
  exact Key.identity_parse_encode hwritable

/-- The entry of a group contributes all operands of the group to its identity. -/
theorem ofEntry_stacked (hg : g.WellFormed table) :
    (Contribution.ofEntry table (g.stacked table)).identity = g.identity ∧
      (Contribution.ofEntry table (g.stacked table)).operands = g.operands := by
  by_cases h : 2 ≤ g.members.length
  · obtain ⟨hidentity, hspread⟩ := identity_parse_collectionKey hg
    rw [stacked_of_two_le h]
    refine ⟨hidentity, ?_⟩
    simp [Contribution.operands, Contribution.ofEntry, hspread, Operands.ofValue]
  · have hpos : 0 < g.members.length := List.length_pos_iff.2 hg.members_ne_nil
    obtain ⟨c, hc⟩ := List.length_eq_one_iff.1 (by omega : g.members.length = 1)
    have hmem : c ∈ g.members := by simp [hc]
    have hentry : g.stacked table = (c.raw, c.value) := by simp [stacked, hc]
    rw [hentry, hg.read c hmem]
    exact ⟨hg.identity_eq c hmem, by simp [operands, hc]⟩

end Group

namespace Slot

/-- What the slot of contributions holds after the last of them. -/
def holdingOf : List Contribution → Holding
  | [c] => .single c
  | cs => .collection (cs.flatMap Contribution.operands)

/-- Taking up a contribution adds it to those before. -/
theorem absorb_holdingOf (c : Contribution) (i : Identity) {cs : List Contribution} (h : cs ≠ []) :
    absorb ⟨i, holdingOf cs⟩ c = ⟨i, holdingOf (cs ++ [c])⟩ := by
  cases cs with
  | nil => exact absurd rfl h
  | cons d rest =>
    cases rest with
    | nil => simp [absorb, holdingOf]
    | cons e rest => simp [absorb, holdingOf]

/-- Each slot holds the contributions to its identity. -/
theorem ofContributions_eq (cs : List Contribution) :
    ofContributions cs = (cs.map Contribution.identity).eraseDups.map
      fun i => ⟨i, holdingOf (cs.filter fun c => c.identity == i)⟩ :=
  foldl_amend_eq_map identity Contribution.identity first (fun c s => s.absorb c)
    (fun i cs => ⟨i, holdingOf cs⟩) (fun _ _ => rfl) (fun _ => rfl)
    (fun c i _ h => absorb_holdingOf c i h) cs

/-- The entry of a slot is that of the group it holds. -/
theorem entry_holdingOf (table : OperatorTable) (g : Group) :
    entry table ⟨g.identity, holdingOf g.members⟩ = g.stacked table := by
  obtain ⟨i, members⟩ := g
  cases members with
  | nil => rfl
  | cons c rest => cases rest <;> rfl

end Slot

namespace OperatorTable

variable (table : OperatorTable) (layers : List Tree)

/-- The entry of an identity that occurs is read back as the identity with all its operands. -/
theorem ofEntry_entryAt {table : OperatorTable} {i : Identity} {t : Tree}
    (h : i ∈ table.identities t) :
    (Contribution.ofEntry table (table.entryAt t i)).identity = i ∧
      (Contribution.ofEntry table (table.entryAt t i)).operands = table.operandsAt i t :=
  Group.ofEntry_stacked (wellFormed_membersAt h)

/-- The entries of distinct identities have the identities in order. -/
theorem identities_map_entryAt (t : Tree) :
    table.identities ((table.identities t).eraseDups.map (table.entryAt t)) =
      (table.identities t).eraseDups := by
  conv_rhs => rw [← List.map_id (table.identities t).eraseDups]
  rw [identities, List.map_map]
  apply List.map_congr_left
  intro i hi
  exact (ofEntry_entryAt (List.mem_eraseDups.1 hi)).1

/-- A stacked tree has one entry for each identity of the layers, in first-seen order. -/
theorem stack_eq :
    table.stack layers =
      (table.identities layers.flatten).eraseDups.map (table.entryAt layers.flatten) := by
  have hentries : (Slot.ofContributions
      (layers.flatten.map (Contribution.ofEntry table))).map (Slot.entry table) =
        (table.identities layers.flatten).eraseDups.map (table.entryAt layers.flatten) := by
    simp only [Slot.ofContributions_eq, identities, List.map_map]
    exact List.map_congr_left fun i _ => Slot.entry_holdingOf table ⟨i, _⟩
  have hkeys : (((table.identities layers.flatten).eraseDups.map
      (table.entryAt layers.flatten)).map Prod.fst).Nodup := by
    refine List.Nodup.of_map table.identityOf ?_
    rw [List.map_map]
    change (table.identities _).Nodup
    rw [identities_map_entryAt]
    exact nodup_eraseDups _
  rw [stack, hentries, Tree.ofEntries_of_nodup hkeys]

/-- The identities of a stacked tree are those of the layers, each at its first place. -/
@[simp] theorem identities_stack :
    table.identities (table.stack layers) = (table.identities layers.flatten).eraseDups := by
  rw [stack_eq, identities_map_entryAt]

/-- Where each identity has an entry of its own, this is all that contributes to it. -/
theorem membersAt_map_of_mem {table : OperatorTable} {is : List Identity}
    {entry : Identity → String × Value} (hnodup : is.Nodup)
    (hentry : ∀ i ∈ is, table.identityOf (entry i).1 = i) {i : Identity} (hi : i ∈ is) :
    table.membersAt i (is.map entry) = [Contribution.ofEntry table (entry i)] := by
  have hfilter : is.filter (fun j => table.identityOf (entry j).1 == i) = [i] := by
    calc
      _ = is.filter (· == i) := List.filter_congr fun j hj => by rw [hentry j hj]
      _ = [i] := by
          rw [List.filter_beq, List.count_eq_one_of_mem hnodup hi]
          rfl
  rw [membersAt, List.map_map, List.filter_map]
  exact congrArg (List.map _) hfilter

/-- In a stacked tree one entry contributes to each identity that occurs. -/
theorem membersAt_stack_of_mem {i : Identity} (hi : i ∈ table.identities layers.flatten) :
    table.membersAt i (table.stack layers) =
      [Contribution.ofEntry table (table.entryAt layers.flatten i)] := by
  rw [stack_eq]
  exact membersAt_map_of_mem (nodup_eraseDups _)
    (fun j hj => (ofEntry_entryAt (List.mem_eraseDups.1 hj)).1) (List.mem_eraseDups.2 hi)

/-- In a stacked tree nothing contributes to an identity that does not occur. -/
theorem membersAt_stack_of_not_mem {i : Identity} (hi : i ∉ table.identities layers.flatten) :
    table.membersAt i (table.stack layers) = [] := by
  apply membersAt_eq_nil
  simpa using hi

/-- Stacking keeps the operands of each identity. -/
@[simp] theorem operandsAt_stack (i : Identity) :
    table.operandsAt i (table.stack layers) = table.operandsAt i layers.flatten := by
  by_cases hi : i ∈ table.identities layers.flatten
  · rw [operandsAt, membersAt_stack_of_mem table layers hi, List.flatMap_singleton,
      (ofEntry_entryAt hi).2]
  · rw [operandsAt, membersAt_stack_of_not_mem table layers hi, operandsAt, membersAt_eq_nil hi]

/-- The only entry for an identity is in the stacked tree as it is. -/
theorem mem_stack_of_filter_eq {e : String × Value}
    (h : layers.flatten.filter (fun f => table.identityOf f.1 == table.identityOf e.1) = [e]) :
    e ∈ table.stack layers := by
  have hmembers : table.membersAt (table.identityOf e.1) layers.flatten =
      [Contribution.ofEntry table e] := by
    rw [membersAt, List.filter_map]
    exact congrArg (List.map (Contribution.ofEntry table)) h
  have hi : table.identityOf e.1 ∈ table.identities layers.flatten := by
    rw [← membersAt_ne_nil_iff, hmembers]
    simp
  rw [stack_eq]
  refine List.mem_map.2 ⟨table.identityOf e.1, List.mem_eraseDups.2 hi, ?_⟩
  rw [entryAt, hmembers]
  rfl

/-- A single layer with distinct identities is stacked as it is. -/
theorem stack_singleton_of_nodup {t : Tree} (h : (table.identities t).Nodup) :
    table.stack [t] = t := by
  have hentry : ∀ e ∈ t, table.entryAt t (table.identityOf e.1) = id e := by
    intro e he
    have halone : t.filter (fun f => table.identityOf f.1 == table.identityOf e.1) = [e] := by
      have hsame : ∀ f ∈ t, (table.identityOf f.1 == table.identityOf e.1) = (f == e) := by
        intro f hf
        rw [Bool.eq_iff_iff, beq_iff_eq, beq_iff_eq]
        exact ⟨List.inj_on_of_nodup_map h hf he, fun heq => heq ▸ rfl⟩
      rw [List.filter_congr hsame, List.filter_beq, List.count_eq_one_of_mem h.of_map he]
      rfl
    rw [entryAt, membersAt, List.filter_map]
    exact congrArg (fun members => Group.stacked table ⟨table.identityOf e.1, members⟩)
      (congrArg (List.map (Contribution.ofEntry table)) halone)
  rw [stack_eq, List.flatten_singleton, eraseDups_of_nodup h, identities, List.map_map]
  exact (List.map_congr_left hentry).trans (List.map_id t)

/-- Stacking loses, repeats and reorders nothing: each identity of the layers has exactly one key,
the keys come in first-seen order of their identities, the operands of an identity are those of
all layers in order, and the only entry for an identity stays as it is. -/
theorem stack_conserves (table : OperatorTable) (layers : List Tree) :
    (table.identities (table.stack layers)).Nodup ∧
      (∀ i, i ∈ table.identities (table.stack layers) ↔ ∃ t ∈ layers, i ∈ table.identities t) ∧
      table.identities (table.stack layers) = (layers.flatMap table.identities).eraseDups ∧
      (∀ i, table.operandsAt i (table.stack layers) = layers.flatMap (table.operandsAt i)) ∧
      ∀ e, layers.flatten.filter (fun f => table.identityOf f.1 == table.identityOf e.1) = [e] →
        e ∈ table.stack layers := by
  have hidentities : table.identities layers.flatten = layers.flatMap table.identities := by
    rw [identities, List.map_flatten, List.flatMap_def]
    rfl
  rw [identities_stack, hidentities]
  refine ⟨nodup_eraseDups _, fun i => ?_, rfl, fun i => ?_, fun e => ?_⟩
  · rw [List.mem_eraseDups, List.mem_flatMap]
  · rw [operandsAt_stack, operandsAt_flatten]
  · exact mem_stack_of_filter_eq table layers

/-- A spread key that is alone stays as it is beside a collection. -/
theorem stack_conserves_lone_key :
    let layers : List Tree := [[("+hp", .number (.int 1)), ("#+mp", .number (.int 5))],
      [("+hp", .number (.int 3))]]
    ("#+mp", .number (.int 5)) ∈ empty.stack layers ∧
      empty.operandsAt ⟨.add, "hp"⟩ (empty.stack layers) = [.number (.int 1), .number (.int 3)] := by
  intro layers
  obtain ⟨-, -, -, hoperands, hlone⟩ := stack_conserves empty layers
  refine ⟨hlone ("#+mp", .number (.int 5)) (by decide +kernel), ?_⟩
  rw [hoperands]
  decide +kernel

end OperatorTable

end Overlay
