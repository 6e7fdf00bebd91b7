import Overlay.Proofs.Reduce.Refolding

/-!
# Reduced trees stay as they are

Operands that find no value of their type at a base key are folded into one and left beside it. When the
tree is reduced again they find the value that was settled there, which is of the same type as the value
that they found before, and a single operand is folded to itself. So they are left once more, and nothing
else is there to be applied. Without merges, therefore, a reduced tree is reduced to itself, as long as the
arithmetic stays exact: an integer that overflows is a float from there on.
-/

namespace Overlay

mutual

/-- All keys in a value, at any depth and within arrays too. -/
def Value.allKeys : Value → List String
  | .tree entries => Tree.allKeys entries
  | .array items => Value.allKeysOfItems items
  | _ => []

/-- All keys in the items of an array. -/
def Value.allKeysOfItems : List Value → List String
  | [] => []
  | item :: rest => item.allKeys ++ Value.allKeysOfItems rest

/-- All keys of a tree and in the values of the tree. -/
def Tree.allKeys : Tree → List String
  | [] => []
  | (key, value) :: rest => key :: (value.allKeys ++ Tree.allKeys rest)

end

namespace OperatorTable

variable {table : OperatorTable} {inner : Reduction} {t r : Tree} {base : String}

section Again

variable {o o' : Operator} {value : Option Value} {operands : Operands} {cs : Contents}

/-- A central operator leaves beside a value that it does not take what it leaves without a value. -/
theorem apply_of_not_taken (table : OperatorTable) (ho : o.isCentral = true)
    (h : value.any o.takes = false) (operands : Operands) :
    table.apply o value operands = (value, (table.apply o none operands).2) := by
  cases o with
  | multiply | add =>
    have hnone : value.bind Value.number? = none := by
      cases value with
      | none => rfl
      | some v => simpa [Operator.takes] using h
    simp only [apply, multiplyNumbers, addNumbers, calculate, hnone, Option.bind_none]
    split <;> rfl
  | prepend | append =>
    have hnone : value.bind Value.items? = none := by
      cases value with
      | none => rfl
      | some v => simpa [Operator.takes] using h
    simp only [apply, prependArrays, appendArrays, spliceArrays_left _ _ hnone,
      spliceArrays_left _ _ (Option.bind_none _)]
  | _ => simp [Operator.isCentral] at ho

/-- A central operator leaves nothing beside a value that it takes. -/
theorem apply_of_taken (table : OperatorTable) (ho : o.isCentral = true)
    (h : value.any o.takes = true) (operands : Operands) : (table.apply o value operands).2 = [] := by
  cases value with
  | none => exact absurd h Bool.false_ne_true
  | some v =>
    rw [Option.any_some] at h
    cases o with
    | multiply | add =>
      obtain ⟨n, hn⟩ := Option.isSome_iff_exists.1 h
      simp only [apply, multiplyNumbers, addNumbers, calculate, Option.bind_some, hn]
      split <;> rfl
    | prepend | append =>
      obtain ⟨items, hitems⟩ := Option.isSome_iff_exists.1 h
      cases v with
      | array items =>
        simp only [apply, prependArrays, appendArrays, spliceArrays]
        split
        · rfl
        · rfl
        · next hother => exact absurd rfl (hother items)
      | _ => simp [Value.items?] at hitems
    | _ => simp [Operator.isCentral] at ho

/-- A central operator keeps the value or makes of a value that it takes one that it takes again, unless
this is a number that is not finite. -/
theorem apply_cases (table : OperatorTable) (ho : o.isCentral = true) (value : Option Value)
    (operands : Operands) :
    (table.apply o value operands).1 = value ∨ ∃ v w, value = some v ∧ o.takes v = true ∧
      (table.apply o value operands).1 = some w ∧ (w = .null ∨ o.takes w = true) := by
  cases o with
  | multiply | add =>
    simp only [apply, multiplyNumbers, addNumbers, calculate]
    split
    · exact .inl rfl
    · split
      · next current hcurrent =>
        obtain ⟨v, rfl, hv⟩ := Option.bind_eq_some_iff.1 hcurrent
        refine .inr ⟨v, _, rfl, by simp [Operator.takes, hv], rfl, ?_⟩
        obtain hnull | ⟨m, hm⟩ := toValue_cases _
        · exact .inl hnull
        · exact .inr (by rw [hm]; rfl)
      · exact .inl rfl
  | prepend | append =>
    simp only [apply, prependArrays, appendArrays, spliceArrays]
    split
    · exact .inl rfl
    · exact .inr ⟨_, _, rfl, rfl, rfl, .inr rfl⟩
    · exact .inl rfl
  | _ => simp [Operator.isCentral] at ho

/-- Central operators that take one value in common take the same values. -/
theorem takes_congr (ho : o.isCentral = true) (ho' : o'.isCentral = true) {v : Value}
    (h : o.takes v = true) (h' : o'.takes v = true) (w : Value) : o.takes w = o'.takes w := by
  cases o <;> simp [Operator.isCentral] at ho <;> cases o' <;> simp [Operator.isCentral] at ho' <;>
    first
    | rfl
    | cases v <;> simp [Operator.takes, Value.number?, Value.items?] at h h'

/-- No central operator takes null. -/
theorem takes_null (ho : o.isCentral = true) : o.takes .null = false := by
  cases o <;> simp [Operator.isCentral] at ho <;> rfl

/-- A central operator makes no value that another takes of one that this does not take. -/
theorem any_takes_of_apply (ho : o.isCentral = true) (ho' : o'.isCentral = true)
    (h : (table.apply o value operands).1.any o'.takes = true) : value.any o'.takes = true := by
  obtain heq | ⟨v, w, rfl, hv, hw, hagain⟩ := apply_cases table ho value operands
  · rwa [heq] at h
  · rw [hw, Option.any_some] at h
    rw [Option.any_some]
    rcases hagain with rfl | hagain
    · simp [takes_null ho'] at h
    · rwa [← takes_congr ho ho' hagain h]

/-- Central operators make no value that one of them takes of one that this does not take. -/
theorem any_takes_of_applyEach (hcs : ∀ c ∈ cs, c.1.isCentral = true) (ho : o.isCentral = true)
    (h : (table.applyEach value cs).1.any o.takes = true) : value.any o.takes = true := by
  induction cs generalizing value with
  | nil => exact h
  | cons c rest ih =>
    exact any_takes_of_apply (hcs c List.mem_cons_self) ho
      (ih (fun d hd => hcs d (List.mem_cons_of_mem _ hd)) h)

/-- What a central operator has left beside a value it leaves again beside another that it takes or does
not take alike. -/
theorem apply_left_again (table : OperatorTable) (ho : o.isCentral = true)
    (hfolds : o.FoldsExactly operands) {settled : Option Value}
    (hkind : settled.any o.takes = value.any o.takes) :
    table.apply o settled (table.apply o value operands).2 =
      (settled, (table.apply o value operands).2) := by
  cases htaken : value.any o.takes with
  | true => rw [apply_of_taken table ho htaken, apply_nil table ho]
  | false =>
    have hfolded := apply_append_left table ho hfolds (List.nil_append operands ▸ hfolds) settled
    rw [List.nil_append, List.nil_append] at hfolded
    rw [apply_of_not_taken table ho htaken, hfolded, apply_of_not_taken table ho (hkind.trans htaken)]

/-- What central operators have left beside a value they leave again beside the value that they have made,
if they take it as they took the value before. -/
theorem applyEach_left_again (hcs : ∀ c ∈ cs, c.1.isCentral = true ∧ c.1.FoldsExactly c.2)
    (hkept : ∀ o : Operator, o.isCentral = true → value.any o.takes = true →
      (table.applyEach value cs).1.any o.takes = true) :
    table.applyEach (table.applyEach value cs).1 (table.applyEach value cs).2 =
      table.applyEach value cs := by
  induction cs generalizing value with
  | nil => rfl
  | cons c rest ih =>
    obtain ⟨hc, hfolds⟩ := hcs c List.mem_cons_self
    have hcs' : ∀ d ∈ rest, d.1.isCentral = true ∧ d.1.FoldsExactly d.2 :=
      fun d hd => hcs d (List.mem_cons_of_mem _ hd)
    have hrest := ih hcs' fun o ho htaken => hkept o ho (any_takes_of_apply hc ho htaken)
    have hkind : (table.applyEach value (c :: rest)).1.any c.1.takes = value.any c.1.takes :=
      Bool.eq_iff_iff.2 ⟨any_takes_of_applyEach (fun d hd => (hcs d hd).1) hc, hkept c.1 hc⟩
    have hfirst := apply_left_again table hc hfolds hkind
    simp only [applyEach] at hfirst ⊢
    rw [hfirst, hrest]

end Again

section Base

variable {start : Option Value}

/-- A value can be reduced to one that reduction leaves alone, if it can when it is a tree. -/
theorem exists_stable_start {value : Option Value} (h : ∀ u, value = some (.tree u) →
      ∃ s, inner u = some s ∧ inner s = some s) :
    ∃ start, reducePresent inner value = some start ∧ reducePresent inner start = some start := by
  by_cases htree : ∃ u, value = some (.tree u)
  · obtain ⟨u, rfl⟩ := htree
    obtain ⟨s, hs, hagain⟩ := h u rfl
    refine ⟨some (.tree s), ?_, ?_⟩
    · rw [reducePresent, Value.reduceWith, hs]
      rfl
    · rw [reducePresent, Value.reduceWith, hagain]
      rfl
  · have hkept : reducePresent inner value = some value :=
      reducePresent_of_ne_tree fun u hu => htree ⟨u, hu⟩
    exact ⟨value, hkept, hkept⟩

/-- The closed form makes of a value one that a central operator takes if it took the value before. -/
theorem any_takes_applyTo (c : CentralOperands) (value : Option Value) {o : Operator}
    (ho : o.isCentral = true) : (c.applyTo value).any o.takes = value.any o.takes := by
  unfold CentralOperands.applyTo
  split
  · cases o <;> rfl
  · cases o <;> rfl
  · rfl

/-- The closed form makes of a value that reduction leaves alone another one. -/
theorem reducePresent_applyTo (c : CentralOperands) (h : reducePresent inner start = some start) :
    reducePresent inner (c.applyTo start) = some (c.applyTo start) := by
  obtain ⟨u, -, rfl, -, -⟩ | ⟨hother, -⟩ := reducePresent_cases h
  · exact h
  · exact reducePresent_of_ne_tree (applyTo_ne_tree c hother)

/-- Where the arithmetic stays exact, the central operators make of the reduced value what the closed form
makes of it. -/
theorem applyEach_of_exact (hexact : table.ExactAt base t)
    (hstart : reducePresent inner (table.assignedAt base t) = some start) :
    (table.applyEach start (table.centralContents base t)).1 =
      (table.centralOperands base t).applyTo start := by
  obtain ⟨-, s, -, -, rfl⟩ | ⟨-, rfl⟩ := reducePresent_cases hstart
  · exact (centralResult_kept hexact rfl rfl).1
  · exact (centralResult_assigned hexact).1

/-- The entries of a base key are read back as the value that was settled and the operands that were
left, for central operators again. -/
theorem read_back_central {block : Tree} (hblock : block =
      ((table.applyEach start (table.centralContents base t)).1.toList.map
          fun v => ((Key.plain base).encode table, v)) ++
        table.residueEntries base (table.applyEach start (table.centralContents base t)).2) :
    (∀ i ∈ table.identities block, i.base = base ∧
        (i.operator = .assign ∨ i.operator.isCentral = true)) ∧
      table.assignedAt base block = (table.applyEach start (table.centralContents base t)).1 ∧
        table.centralContents base block =
          (table.applyEach start (table.centralContents base t)).2 := by
  have hoperators : (table.applyEach start (table.centralContents base t)).2.map Prod.fst =
      Operator.centrals := by
    simp
  have hfits := fun c (hc : c ∈ (table.applyEach start (table.centralContents base t)).2) =>
    fitsBefore_of_mem_left hc
  subst hblock
  generalize (table.applyEach start (table.centralContents base t)).1 = settled at *
  generalize (table.applyEach start (table.centralContents base t)).2 = lefts at *
  have hassign : ∀ c ∈ lefts, c.1 ≠ .assign := by
    intro c hc heq
    have hmem : c.1 ∈ Operator.centrals := hoperators ▸ List.mem_map_of_mem hc
    rw [heq] at hmem
    exact absurd hmem (by decide)
  refine ⟨fun i hi => ?_, ?_, ?_⟩
  · rw [← Operator.mem_centrals_iff, ← hoperators]
    exact mem_identities_written hfits settled hi
  · rw [assignedAt, operandsAt_assign_written hfits settled hassign]
    cases settled <;> rfl
  · rw [centralContents, ← hoperators, List.map_map]
    conv_rhs => rw [← List.map_id lefts]
    refine List.map_congr_left fun c hc => Prod.ext rfl ?_
    exact operandsAt_written hfits settled hassign (hoperators ▸ by decide) hc

/-- Neither a plain key nor that of a central operator is a merge with the whole tree. -/
theorem isRootMerge_of_kinds (hkinds : ∀ i ∈ table.identities t,
      i.operator = .assign ∨ i.operator.isCentral = true) :
    ∀ i ∈ table.identities t, i.isRootMerge = false := by
  intro i hi
  rcases hkinds i hi with h | h
  · rw [Identity.isRootMerge, h]
    rfl
  · exact Operator.isRootMerge_of_isCentral h

/-- A base key is reduced to what the central operators make of the reduced value, if reduction leaves that
alone. -/
theorem reduceLevel_atBase_of_settled (hkinds : ∀ i ∈ table.identities t,
      i.operator = .assign ∨ i.operator.isCentral = true)
    (hstart : reducePresent inner (table.assignedAt base t) = some start)
    (hsettled : reducePresent inner (table.applyEach start (table.centralContents base t)).1 =
      some (table.applyEach start (table.centralContents base t)).1) :
    table.reduceLevel inner (table.atBase base t) =
      some (((table.applyEach start (table.centralContents base t)).1.toList.map
          fun v => ((Key.plain base).encode table, v)) ++
        table.residueEntries base (table.applyEach start (table.centralContents base t)).2) := by
  have hsettle : table.settleCentral inner base t start =
      some (table.applyEach start (table.centralContents base t)).1 := by
    rw [settleCentral]
    cases hnone : table.hasCentral base t with
    | true => exact hsettled
    | false => exact congrArg some (applyEach_of_hasCentral_eq_false hnone start).1.symm
  rw [reduceLevel_atBase (rootContents_eq_nil table
      (isRootMerge_atBase (isRootMerge_of_kinds hkinds) base)),
    reduceBase_of_central fun i hi _ => hkinds i hi, hstart, Option.bind_some, hsettle]
  rfl

/-- Where the arithmetic stays exact, the operands of each central operator are folded exactly. -/
theorem ExactAt.foldsExactly (h : table.ExactAt base t) {c : Operator × Operands}
    (hc : c ∈ table.centralContents base t) : c.1.isCentral = true ∧ c.1.FoldsExactly c.2 := by
  refine ⟨isCentral_of_mem_centralContents hc, ?_⟩
  obtain ⟨o, -, rfl⟩ := List.mem_map.1 hc
  cases o with
  | multiply => exact ⟨h.operands .multiply (by simp), h.products⟩
  | add => exact ⟨h.operands .add (by simp), h.sums⟩
  | _ => trivial

/-- A base key without merges, at which the arithmetic stays exact and reduction leaves alone what the
assigned value is reduced to, is reduced to entries that are reduced to themselves. -/
theorem exists_reduceLevel_atBase_again (hkinds : ∀ i ∈ table.identities t,
      i.operator = .assign ∨ i.operator.isCentral = true)
    (hexact : table.ExactAt base t)
    (hstart : reducePresent inner (table.assignedAt base t) = some start)
    (hstable : reducePresent inner start = some start) :
    ∃ block, table.reduceLevel inner (table.atBase base t) = some block ∧
      table.reduceLevel inner block = some block ∧
        ∀ i ∈ table.identities block, i.isRootMerge = false := by
  let settled := (table.applyEach start (table.centralContents base t)).1
  let lefts := (table.applyEach start (table.centralContents base t)).2
  let block : Tree := (settled.toList.map fun v => ((Key.plain base).encode table, v)) ++
    table.residueEntries base lefts
  obtain ⟨hidentities, hassigned, hcontents⟩ :
    (∀ i ∈ table.identities block, i.base = base ∧
        (i.operator = .assign ∨ i.operator.isCentral = true)) ∧
      table.assignedAt base block = settled ∧ table.centralContents base block = lefts :=
    read_back_central rfl
  have hkindsAgain : ∀ i ∈ table.identities block,
      i.operator = .assign ∨ i.operator.isCentral = true := fun i hi => (hidentities i hi).2
  have hatBase : table.atBase base block = block :=
    atBase_eq_self fun e he => (hidentities _ (List.mem_map_of_mem he)).1
  have happlied : settled = (table.centralOperands base t).applyTo start :=
    applyEach_of_exact hexact hstart
  have hsettled : reducePresent inner settled = some settled := by
    rw [happlied]
    exact reducePresent_applyTo _ hstable
  have hagain : table.applyEach settled lefts = (settled, lefts) := by
    refine applyEach_left_again (fun c hc => hexact.foldsExactly hc) fun o ho htaken => ?_
    change settled.any o.takes = true
    rwa [happlied, any_takes_applyTo _ _ ho]
  refine ⟨block, reduceLevel_atBase_of_settled hkinds hstart hsettled, ?_,
    isRootMerge_of_kinds hkindsAgain⟩
  have hstartAgain : reducePresent inner (table.assignedAt base block) = some settled := by
    rw [hassigned]
    exact hsettled
  have hlevel := reduceLevel_atBase_of_settled hkindsAgain hstartAgain
  rw [hatBase, hcontents, hagain] at hlevel
  exact hlevel hsettled

end Base

section Throughout

/-- The trees that are assigned at the base keys of a tree. -/
def assignedTrees (table : OperatorTable) (t : Tree) : List Tree :=
  (table.bases t).filterMap fun base => (table.assignedAt base t).bind Value.tree?

/-- Arithmetic that stays exact throughout a tree: at each base key, and in the trees that are assigned
there. -/
inductive ExactThroughout (table : OperatorTable) : Tree → Prop
  | intro {t : Tree} (level : ∀ base ∈ table.bases t, table.ExactAt base t)
      (values : ∀ u ∈ table.assignedTrees t, table.ExactThroughout u) : table.ExactThroughout t

/-- The keys in the items of an array are those in some item. -/
theorem mem_allKeysOfItems {key : String} {items : List Value} :
    key ∈ Value.allKeysOfItems items ↔ ∃ item ∈ items, key ∈ item.allKeys := by
  induction items with
  | nil => simp [Value.allKeysOfItems]
  | cons item rest ih => simp [Value.allKeysOfItems, ih]

/-- The keys of a tree are those of its entries and those in their values. -/
theorem mem_allKeys {key : String} : key ∈ t.allKeys ↔ ∃ e ∈ t, key = e.1 ∨ key ∈ e.2.allKeys := by
  induction t with
  | nil => simp [Tree.allKeys]
  | cons e rest ih =>
    rw [Tree.allKeys, List.mem_cons, List.mem_append, ih, List.exists_mem_cons_iff, or_assoc]

/-- The operands that a value gives hold no other keys than the value. -/
theorem mem_allKeys_of_mem_ofValue {spread : Bool} {value v : Value} {key : String}
    (hv : v ∈ Operands.ofValue spread value) (hkey : key ∈ v.allKeys) : key ∈ value.allKeys := by
  unfold Operands.ofValue at hv
  split at hv
  · exact mem_allKeysOfItems.2 ⟨v, hv, hkey⟩
  · rwa [← List.mem_singleton.1 hv]

/-- The trees that are assigned in a tree hold no other keys than the tree. -/
theorem allKeys_of_mem_assignedTrees {u : Tree} (hu : u ∈ table.assignedTrees t) :
    ∀ key ∈ u.allKeys, key ∈ t.allKeys := by
  intro key hkey
  obtain ⟨base, -, hassigned⟩ := List.mem_filterMap.1 hu
  obtain ⟨v, hv, htree⟩ := Option.bind_eq_some_iff.1 hassigned
  have hkey' : key ∈ v.allKeys := by
    cases v with
    | tree entries => rwa [Option.some.inj htree]
    | _ => simp [Value.tree?] at htree
  have hoperand := List.mem_of_getLast? hv
  rw [operandsAt_eq_flatMap] at hoperand
  obtain ⟨e, he, hoperand⟩ := List.mem_flatMap.1 hoperand
  exact mem_allKeys.2 ⟨e, (List.mem_filter.1 he).1, .inr (mem_allKeys_of_mem_ofValue hoperand hkey')⟩

/-- Without custom operators a key that is no merge is plain or for a central operator. -/
theorem kinds_of_no_merge (h : ∀ key ∈ t.allKeys, (Key.parse empty key).operator.isMerge = false) :
    ∀ i ∈ empty.identities t, i.operator = .assign ∨ i.operator.isCentral = true := by
  intro i hi
  have hfits := fitsBefore_of_mem_identities empty hi
  have hmerge : i.operator.isMerge = false := by
    obtain ⟨e, he, rfl⟩ := List.mem_map.1 hi
    exact h e.1 (mem_allKeys.2 ⟨e, he, .inl rfl⟩)
  cases ho : i.operator with
  | assign => exact .inl rfl
  | merge side level => simp [ho, Operator.isMerge] at hmerge
  | custom name =>
    rw [ho] at hfits
    exact absurd hfits Bool.false_ne_true
  | _ => exact .inr rfl

end Throughout

/-- Reducing twice is stable: without merges at any depth, and with arithmetic that stays exact throughout
the reduction of a tree, what the tree is reduced to is reduced to itself. The second reduction has one
operand at most for each operator, so nothing is asked of its arithmetic. -/
theorem reducing_twice_is_stable (t : Tree)
    (hmerges : ∀ key ∈ t.allKeys, (Key.parse empty key).operator.isMerge = false)
    (hexact : empty.ExactThroughout t) :
    ∃ r, empty.reduce t = some r ∧ empty.reduce r = some r := by
  induction hexact with
  | @intro t hlevel _ ih =>
    have hkinds := kinds_of_no_merge hmerges
    obtain ⟨r, hr, hagain⟩ : ∃ r, empty.reduceLevel empty.reduce t = some r ∧
        empty.reduceLevel empty.reduce r = some r := by
      refine exists_reduceLevel_again (isRootMerge_of_kinds hkinds) fun base hbase => ?_
      have hassigned : ∀ u, empty.assignedAt base t = some (.tree u) →
          ∃ s, empty.reduce u = some s ∧ empty.reduce s = some s := by
        intro u hu
        have hmem : u ∈ empty.assignedTrees t :=
          List.mem_filterMap.2 ⟨base, hbase, by rw [hu]; rfl⟩
        exact ih u hmem fun key hkey => hmerges key (allKeys_of_mem_assignedTrees hmem key hkey)
      obtain ⟨start, hstart, hstable⟩ := exists_stable_start hassigned
      exact exists_reduceLevel_atBase_again hkinds (hlevel base hbase) hstart hstable
    rw [reduceLevel_reduce] at hr hagain
    exact ⟨r, hr, hagain⟩

/-- Operands that are left beside a number, beside a tree that keeps operands itself and beside an array,
with two spellings of a base key and of an operator, a spread tree and an escaped key that looks like a
merge. -/
theorem reducing_twice_is_stable_with_residue :
    let t : Tree := [("hp", .number (.int 7)), ("#*hp", .array [.number (.int 2), .string "x"]),
      ("<+hp", .array [.null]), ("+aura", .number (.int 4)), ("aura", .null),
      ("#()aura", .array [.bool true, .tree [("+heat", .number (.int 1)), ("heat", .string "none"),
        ("#+>heat", .array [.array [.null], .array [.tree [("+a", .number (.int 1))]]])]]),
      ("items", .array [.string "a"]), ("<+items", .array [.string "b"]), ("*items", .number (.int 3)),
      ("#+gold", .array [.number (.int 5), .number (.int (-2))]), ("#+aura", .array [.number (.int 6)]),
      ("()*>items", .bool false)]
    let r : Tree := [("hp", .number (.int 14)), ("<+hp", .array [.null]),
      ("aura", .tree [("heat", .string "none"), ("+heat", .number (.int 1)),
        ("+>heat", .array [.null, .tree [("+a", .number (.int 1))]])]), ("+aura", .number (.int 10)),
      ("items", .array [.string "b", .string "a"]), ("*items", .number (.int 3)),
      ("+gold", .number (.int 3)), ("()*>items", .bool false)]
    empty.reduce t = some r ∧ empty.reduce r = some r := by
  intro t r
  let aura : Tree := [("+heat", .number (.int 1)), ("heat", .string "none"),
    ("#+>heat", .array [.array [.null], .array [.tree [("+a", .number (.int 1))]]])]
  have hmerges : ∀ key ∈ t.allKeys, (Key.parse empty key).operator.isMerge = false := by
    decide +kernel
  have htrees : empty.assignedTrees t = [aura] := by decide +kernel
  have hnone : empty.assignedTrees aura = [] := by decide +kernel
  have haura : empty.ExactThroughout aura :=
    .intro (by decide +kernel) fun u hu => absurd hu (by simp [hnone])
  have hexact : empty.ExactThroughout t :=
    .intro (by decide +kernel) fun u hu => by
      rw [htrees] at hu
      rwa [List.mem_singleton.1 hu]
  have hreduce : empty.reduce t = some r := reduces_iff_reduce.1 ⟨3, by decide +kernel⟩
  obtain ⟨s, hs, hagain⟩ := reducing_twice_is_stable t hmerges hexact
  obtain rfl := Option.some.inj (hs.symm.trans hreduce)
  exact ⟨hs, hagain⟩

end OperatorTable

end Overlay
