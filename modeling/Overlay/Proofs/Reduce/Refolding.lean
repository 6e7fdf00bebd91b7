import Overlay.Proofs.Reduce.ClosedForm
import Overlay.Proofs.Reduce.Unfit

/-!
# Residue takes the place of what it was folded from

Layers that hold operands of central operators only have no value to apply them to. Their reduction folds
the operands of each operator at each base key into one, which it leaves. Laid over other layers, the
residue does what the layers themselves would do: each operator finds the same product, sum or joined
array, whatever else there is at its base key. The order of the operators at a base key is lost in the
residue and is not missed, since central operators are applied by rank.
-/

namespace Overlay

/-- Operands that the arithmetic of an operator folds exactly. Other operators fold nothing. -/
def Operator.FoldsExactly : Operator → Operands → Prop
  | multiply, operands => Overlay.FoldsExactly (· * ·) 1 operands
  | add, operands => Overlay.FoldsExactly (· + ·) 0 operands
  | _, _ => True

instance (o : Operator) (operands : Operands) : Decidable (o.FoldsExactly operands) := by
  unfold Operator.FoldsExactly
  split <;> infer_instance

section Folding

variable {exact : Int → Int → Int} {rounded : Float → Float → Float} {unit : Int} {as bs : Operands}

/-- The first operands are folded exactly if all are. -/
theorem FoldsExactly.of_append (h : FoldsExactly exact unit (as ++ bs)) :
    FoldsExactly exact unit as where
  words x hx := h.words x (List.mem_append_left bs hx)
  prefixes k hk := by
    have hprefix := h.prefixes k (by rw [List.filterMap_append, List.length_append]; omega)
    rwa [List.filterMap_append, List.take_append_of_le_length hk] at hprefix

/-- Arithmetic sees only whether there are numbers and what they are folded into. -/
theorem calculate_congr {operation : Number → Number → Number} {start : Number}
    (hnone : as.filterMap Value.number? = [] ↔ bs.filterMap Value.number? = [])
    (hfold : (as.filterMap Value.number?).foldl operation start =
      (bs.filterMap Value.number?).foldl operation start) (value : Option Value) :
    calculate operation start value as = calculate operation start value bs := by
  unfold calculate
  cases has : as.filterMap Value.number? with
  | nil => rw [hnone.1 has]
  | cons a rest =>
    cases hbs : bs.filterMap Value.number? with
    | nil => simp [hnone.2 hbs] at has
    | cons b rest' =>
      rw [has, hbs] at hfold
      simp only [hfold]

/-- Joining sees only whether there are arrays and what they are joined to. -/
theorem spliceArrays_congr {splice : List Value → List Value → List Value} {xs ys : List (List Value)}
    (hnone : xs = [] ↔ ys = []) (hjoin : xs.flatten = ys.flatten) (value : Option Value) :
    spliceArrays splice xs value = spliceArrays splice ys value := by
  cases hitems : value.bind Value.items? with
  | none =>
    rw [spliceArrays_left _ _ hitems, spliceArrays_left _ _ hitems, hjoin]
    simp only [hnone]
  | some items =>
    obtain ⟨v, rfl, hv⟩ := Option.bind_eq_some_iff.1 hitems
    cases v with
    | array items =>
      cases xs with
      | nil => rw [hnone.1 rfl]
      | cons x rest =>
        cases ys with
        | nil => simp at hnone
        | cons y rest' =>
          exact congrArg (fun joined => (some (Value.array (splice items joined)), [])) hjoin
    | _ => simp [Value.items?] at hv

/-- Folding goes on from what was folded first. -/
theorem foldl_append_exact [Std.Associative exact] (hunit : ∀ a, exact a unit = a) (ms ns : List Int) :
    (ms ++ ns).foldl exact unit = exact (ms.foldl exact unit) (ns.foldl exact unit) := by
  calc
    (ms ++ ns).foldl exact unit = ns.foldl exact (exact (ms.foldl exact unit) unit) := by
      rw [List.foldl_append, hunit]
    _ = exact (ms.foldl exact unit) (ns.foldl exact unit) := List.foldl_assoc

/-- Numbers that are folded into one before are folded with others to the same. -/
theorem calculate_append_left [Std.Associative exact] (hunit : ∀ a, exact a unit = a)
    (hbs : FoldsExactly exact unit bs) (h : FoldsExactly exact unit (as ++ bs)) (value : Option Value) :
    calculate (Number.combine exact rounded) (.int unit) value
        (as ++ (calculate (Number.combine exact rounded) (.int unit) none bs).2) =
      calculate (Number.combine exact rounded) (.int unit) value (as ++ bs) := by
  obtain ⟨hnumbers, hfold, hword⟩ := hbs.fold rounded
  obtain ⟨hnumbers', hfold', hword'⟩ := h.of_append.fold rounded
  obtain ⟨hall, hfoldAll, hwordAll⟩ := h.fold rounded
  rw [calculate_left hnumbers hfold rfl]
  -- Without numbers nothing is left, and there is nothing to be folded again.
  by_cases hnone : bs.filterMap Value.int? = []
  · rw [if_pos hnone]
    apply calculate_congr <;> simp [hnumbers, hnone]
  · rw [if_neg hnone]
    have hleft : (as ++ [Value.number (.int ((bs.filterMap Value.int?).foldl exact unit))]).filterMap
        Value.number? = (as.filterMap Value.int?).map Number.int ++
          [.int ((bs.filterMap Value.int?).foldl exact unit)] := by
      rw [List.filterMap_append, hnumbers']
      rfl
    have hints : (as ++ bs).filterMap Value.int? =
        as.filterMap Value.int? ++ bs.filterMap Value.int? := List.filterMap_append
    rw [hints, foldl_append_exact hunit] at hwordAll hfoldAll
    rw [hints] at hall
    apply calculate_congr
    · rw [hleft, hall]
      simp [hnone]
    · rw [hleft, hall, hfoldAll, List.foldl_concat, hfold', Number.combine_int hword' hword hwordAll]

/-- Joined arrays that are left are one array, whichever end it is read from. -/
theorem spliceArrays_none (splice : List Value → List Value → List Value) (xs : List (List Value)) :
    (((spliceArrays splice xs none).2.filterMap Value.items?).flatten = xs.flatten) ∧
      ((spliceArrays splice xs none).2.filterMap Value.items? = [] ↔ xs = []) ∧
        (spliceArrays splice xs none).2.reverse = (spliceArrays splice xs none).2 := by
  have hleft : (spliceArrays splice xs none).2 = if xs = [] then [] else [.array xs.flatten] :=
    congrArg Prod.snd (spliceArrays_left splice xs rfl)
  rw [hleft]
  by_cases hxs : xs = [] <;> simp [hxs, Value.items?]

/-- Operands that a central operator has folded into one before do the same behind others. -/
theorem apply_append_left (table : OperatorTable) {o : Operator} (ho : o.isCentral = true)
    (hbs : o.FoldsExactly bs) (h : o.FoldsExactly (as ++ bs)) (value : Option Value) :
    table.apply o value (as ++ (table.apply o none bs).2) = table.apply o value (as ++ bs) := by
  cases o with
  | multiply => exact calculate_append_left Int.mul_one hbs h value
  | add => exact calculate_append_left Int.add_zero hbs h value
  | prepend =>
    obtain ⟨hjoin, hnone, hreverse⟩ := spliceArrays_none (fun items joined => joined ++ items)
      (bs.reverse.filterMap Value.items?)
    simp only [OperatorTable.apply, prependArrays, List.reverse_append, List.filterMap_append, hreverse]
    apply spliceArrays_congr
    · simp only [List.append_eq_nil_iff, hnone]
    · rw [List.flatten_append, List.flatten_append, hjoin]
  | append =>
    obtain ⟨hjoin, hnone, -⟩ := spliceArrays_none (fun items joined => items ++ joined)
      (bs.filterMap Value.items?)
    simp only [OperatorTable.apply, appendArrays, List.filterMap_append]
    apply spliceArrays_congr
    · simp only [List.append_eq_nil_iff, hnone]
    · rw [List.flatten_append, List.flatten_append, hjoin]
  | _ => simp [Operator.isCentral] at ho

end Folding

namespace OperatorTable

variable {table : OperatorTable} {t u v : Tree} {base : String}

section Behind

variable (hu : ∀ i ∈ table.identities u, i.operator.isCentral = true)

include hu

/-- Entries for central operators are no merges with the whole tree. -/
theorem not_isRootMerge_of_central : ∀ i ∈ table.identities u, i.isRootMerge = false :=
  fun i hi => Operator.isRootMerge_of_isCentral (hu i hi)

/-- Behind a tree, entries for central operators leave all else. -/
theorem sameBesideCentral_append (t : Tree) : SameBesideCentral table (t ++ u) t where
  identities_eq := by
    have hnone : (table.identities u).filter (fun i => !i.operator.isCentral) = [] :=
      List.filter_eq_nil_iff.2 fun i hi => by simp [hu i hi]
    simp [hnone]
  operandsAt_eq i hi := by
    have hnone : table.operandsAt i u = [] :=
      operandsAt_eq_nil fun hmem => by simp [hu i hmem] at hi
    simp [hnone]

/-- Behind a tree, entries for central operators add their base keys. -/
theorem basesOf_append_central (t : Tree) :
    basesOf (table.declared (t ++ u)) =
      (((table.identities t).filter fun i => !i.isRootMerge).map Identity.base ++
        table.bases u).eraseDups := by
  have hroot : (table.identities u).filter (fun i => !i.isRootMerge) = table.identities u :=
    List.filter_eq_self.2 fun i hi => by simp [not_isRootMerge_of_central hu i hi]
  have hbases : table.bases u = ((table.identities u).map Identity.base).eraseDups := by
    rw [bases, identities, List.map_map]
    rfl
  simp [basesOf_declared, hroot, hbases]

end Behind

section Exchange

/-- Two trees of central operands that come to the same behind a tree: they have the same identities, and
their base keys in the same order, and each operator does the same with the operands of either. -/
structure Exchangeable (table : OperatorTable) (t u v : Tree) : Prop where
  central : ∀ i ∈ table.identities u, i.operator.isCentral = true
  identities_iff : ∀ i, i ∈ table.identities v ↔ i ∈ table.identities u
  bases_eq : table.bases v = table.bases u
  apply_eq : ∀ base, ∀ o ∈ Operator.centrals, ∀ value,
    table.apply o value (table.operandsAt ⟨o, base⟩ (t ++ v)) =
      table.apply o value (table.operandsAt ⟨o, base⟩ (t ++ u))

variable (h : Exchangeable table t u v)

include h

/-- The entries of the other tree are for central operators too. -/
theorem Exchangeable.central_right : ∀ i ∈ table.identities v, i.operator.isCentral = true :=
  fun i hi => h.central i ((h.identities_iff i).1 hi)

/-- The central operators at a base key do the same behind the tree. -/
theorem Exchangeable.applyEach (base : String) (value : Option Value) :
    table.applyEach value (table.centralContents base (t ++ v)) =
      table.applyEach value (table.centralContents base (t ++ u)) := by
  have hcontents : table.centralContents base (t ++ v) =
      (table.centralContents base (t ++ u)).map fun c =>
        (c.1, table.operandsAt ⟨c.1, base⟩ (t ++ v)) := by
    rw [centralContents, centralContents, List.map_map]
    rfl
  rw [hcontents]
  refine applyEach_map (fun c hc value => ?_) value
  obtain ⟨o, ho, rfl⟩ := List.mem_map.1 hc
  exact h.apply_eq base o ho value

/-- Either tree declares the same central operators behind the tree. -/
theorem Exchangeable.hasCentral (base : String) :
    table.hasCentral base (t ++ v) = table.hasCentral base (t ++ u) := by
  simp only [OperatorTable.hasCentral, identities_append, List.mem_append, h.identities_iff]

/-- Beside the central operators nothing is added by either tree. -/
theorem Exchangeable.sameBesideCentral : SameBesideCentral table (t ++ v) (t ++ u) :=
  (sameBesideCentral_append h.central_right t).trans (sameBesideCentral_append h.central t).symm

/-- A base key without custom operators is reduced alike behind the tree. -/
theorem Exchangeable.reduceBase {inner : Reduction}
    (hcustom : ∀ c ∈ contentsAt (table.declared (t ++ v)) base, ∀ name, c.1 ≠ .custom name)
    (hcustom' : ∀ c ∈ contentsAt (table.declared (t ++ u)) base, ∀ name, c.1 ≠ .custom name) :
    table.reduceBase inner base (numbered (contentsAt (table.declared (t ++ v)) base)) =
      table.reduceBase inner base (numbered (contentsAt (table.declared (t ++ u)) base)) :=
  h.sameBesideCentral.reduceBase_eq hcustom hcustom' (h.applyEach base) fun value _ => by
    simp only [settleCentral, h.applyEach, h.hasCentral]

/-- A tree is reduced alike before either tree, if there are no custom operators. -/
theorem Exchangeable.reduceLevel {inner : Reduction}
    (hcustom : ∀ w base, ∀ c ∈ contentsAt (table.declared w) base, ∀ name, c.1 ≠ .custom name) :
    table.reduceLevel inner (t ++ v) = table.reduceLevel inner (t ++ u) := by
  have hlevel : table.levelEntries inner (t ++ v) = table.levelEntries inner (t ++ u) := by
    rw [levelEntries_eq, levelEntries_eq, basesOf_append_central h.central_right,
      basesOf_append_central h.central, h.bases_eq]
    simp only [h.reduceBase (hcustom _ _) (hcustom _ _)]
  rw [reduceLevel_eq_entries, reduceLevel_eq_entries, hlevel, h.sameBesideCentral.rootContents_eq]

end Exchange

section Residue

/-- Operands of central operators only: each entry has at least one, and its operator takes them all. -/
structure CentralOnly (table : OperatorTable) (u : Tree) : Prop where
  central : ∀ e ∈ u, (table.identityOf e.1).operator.isCentral = true
  present : ∀ e ∈ u, (Contribution.ofEntry table e).operands ≠ []
  taken : ∀ e ∈ u, ∀ v ∈ (Contribution.ofEntry table e).operands,
    (table.identityOf e.1).operator.takes v = true

/-- What the central operators of a tree leave without a value, base key by base key. -/
def residueOf (table : OperatorTable) (u : Tree) : Tree :=
  (table.bases u).flatMap fun base =>
    table.residueEntries base (table.applyEach none (table.centralContents base u)).2

/-- Central operators make no value of none. -/
theorem apply_none (table : OperatorTable) {o : Operator} (ho : o.isCentral = true)
    (operands : Operands) : (table.apply o none operands).1 = none := by
  cases o with
  | multiply | add =>
    simp only [apply, multiplyNumbers, addNumbers, calculate]
    split <;> rfl
  | prepend | append =>
    simp only [apply, prependArrays, appendArrays]
    rw [spliceArrays_left _ _ rfl]
  | _ => simp [Operator.isCentral] at ho

/-- Without a value each central operator leaves what it leaves alone. -/
theorem applyEach_none {cs : Contents} (hcs : ∀ c ∈ cs, c.1.isCentral = true) :
    table.applyEach none cs = (none, cs.map fun c => (c.1, (table.apply c.1 none c.2).2)) := by
  induction cs with
  | nil => rfl
  | cons c rest ih =>
    rw [applyEach, apply_none table (hcs c List.mem_cons_self),
      ih fun d hd => hcs d (List.mem_cons_of_mem _ hd)]
    rfl

/-- A central operator leaves something of operands that it takes. -/
theorem apply_none_ne_nil (table : OperatorTable) {o : Operator} (ho : o.isCentral = true)
    {operands : Operands} (htakes : ∀ v ∈ operands, o.takes v = true) (hne : operands ≠ []) :
    (table.apply o none operands).2 ≠ [] := by
  have hpicked {α : Type} {f : Value → Option α} (hf : ∀ v ∈ operands, (f v).isSome = true) :
      operands.filterMap f ≠ [] := by
    obtain ⟨v, hv⟩ := List.exists_mem_of_ne_nil _ hne
    obtain ⟨a, ha⟩ := Option.isSome_iff_exists.1 (hf v hv)
    exact List.ne_nil_of_mem (List.mem_filterMap.2 ⟨v, hv, ha⟩)
  cases o with
  | multiply | add =>
    simp only [apply, multiplyNumbers, addNumbers, calculate]
    split
    · next hnone => exact absurd hnone (hpicked htakes)
    · simp
  | prepend =>
    intro hnil
    have hnone := (spliceArrays_none _ (operands.reverse.filterMap Value.items?)).2.1.1
      (congrArg (List.filterMap Value.items?) hnil)
    rw [List.filterMap_reverse, List.reverse_eq_nil_iff] at hnone
    exact hpicked htakes hnone
  | append =>
    intro hnil
    exact hpicked htakes ((spliceArrays_none _ (operands.filterMap Value.items?)).2.1.1
      (congrArg (List.filterMap Value.items?) hnil))
  | _ => simp [Operator.isCentral] at ho

/-- What operators have left was left by one of them beside some value. -/
theorem exists_of_mem_applyEach {cs : Contents} {value : Option Value} {c : Operator × Operands}
    (hc : c ∈ (table.applyEach value cs).2) :
    ∃ d ∈ cs, ∃ v, c = (d.1, (table.apply d.1 v d.2).2) := by
  induction cs generalizing value with
  | nil => exact absurd hc List.not_mem_nil
  | cons d rest ih =>
    rw [applyEach] at hc
    rcases List.mem_cons.1 hc with rfl | hc
    · exact ⟨d, List.mem_cons_self, value, rfl⟩
    · obtain ⟨d', hd', hleft⟩ := ih hc
      exact ⟨d', List.mem_cons_of_mem _ hd', hleft⟩

variable {value : Option Value}

/-- What the operators leave at a base key belongs to operators that are declared there. -/
theorem declared_of_mem_left {c : Operator × Operands}
    (hc : c ∈ (table.applyEach value (table.centralContents base u)).2) (hleft : c.2 ≠ []) :
    ⟨c.1, base⟩ ∈ table.identities u := by
  obtain ⟨d, hd, v, rfl⟩ := exists_of_mem_applyEach hc
  by_contra habsent
  exact hleft (congrArg Prod.snd (apply_of_not_declared hd habsent v))

/-- What the operators leave at a base key can be written there. -/
theorem fitsBefore_of_mem_left {c : Operator × Operands}
    (hc : c ∈ (table.applyEach value (table.centralContents base u)).2) (hleft : c.2 ≠ []) :
    c.1.FitsBefore table base.toList :=
  fitsBefore_of_mem_identities table (declared_of_mem_left hc hleft)

section Central

variable (hu : ∀ i ∈ table.identities u, i.operator.isCentral = true)

include hu

/-- The entries for central operators at a base key are reduced to what the operators leave. -/
theorem reduceLevel_atBase_central (inner : Reduction) (base : String) :
    table.reduceLevel inner (table.atBase base u) =
      some (table.residueEntries base (table.applyEach none (table.centralContents base u)).2) := by
  have hroot := not_isRootMerge_of_central hu
  have hcustom : ∀ c ∈ contentsAt (table.declared u) base, ∀ name, c.1 ≠ .custom name := by
    rintro c hc name hname
    obtain ⟨i, hi, -, -, rfl⟩ := (mem_contentsAt_iff table).1 hc
    have hcentral := hu i hi
    rw [show i.operator = .custom name from hname] at hcentral
    exact Bool.false_ne_true hcentral
  have hsame : SameBesideCentral table u [] := sameBesideCentral_append hu []
  have hassign : table.operandsAt ⟨.assign, base⟩ u = [] := hsame.operandsAt_eq _ rfl
  have hbelow : table.mergesBelow base u = [] := hsame.mergesBelow_eq base
  have habove : table.mergesAbove base u = [] := hsame.mergesAbove_eq base
  have hsettle : table.settleCentral inner base u none = some none := by
    rw [settleCentral, applyEach_none fun _ => isCentral_of_mem_centralContents]
    split <;> rfl
  rw [reduceLevel_atBase (rootContents_eq_nil table (isRootMerge_atBase hroot base)),
    reduceBase_of_builtin hcustom, hassign, hbelow, habove]
  change (table.settleCentral inner base u none).bind _ = _
  rw [hsettle]
  rfl

/-- Entries for central operators are reduced to what the operators leave. -/
theorem reduceLevel_central (inner : Reduction) :
    table.reduceLevel inner u = some (table.residueOf u) := by
  have hroot := not_isRootMerge_of_central hu
  exact reduceLevel_of_atBase hroot fun base _ => reduceLevel_atBase_central hu inner base

/-- At each base key stands what the operators leave there. -/
theorem atBase_residueOf (base : String) : table.atBase base (table.residueOf u) =
    table.residueEntries base (table.applyEach none (table.centralContents base u)).2 := by
  have hroot := not_isRootMerge_of_central hu
  have hreduced := reduceLevel_atBase_of_reduceLevel hroot
    (reduceLevel_central hu fun _ => none) base
  exact Option.some.inj (hreduced.symm.trans (reduceLevel_atBase_central hu _ base))

/-- The operands of a central operator are read back from the residue as what the operator leaves. -/
theorem operandsAt_residueOf {o : Operator} (ho : o ∈ Operator.centrals) (base : String) :
    table.operandsAt ⟨o, base⟩ (table.residueOf u) =
      (table.apply o none (table.operandsAt ⟨o, base⟩ u)).2 := by
  have hlefts : (table.applyEach none (table.centralContents base u)).2 =
      Operator.centrals.map fun o => (o, (table.apply o none (table.operandsAt ⟨o, base⟩ u)).2) := by
    rw [applyEach_none fun _ => isCentral_of_mem_centralContents, centralContents, List.map_map]
    rfl
  have hfits := fun c (hc : c ∈ (table.applyEach none (table.centralContents base u)).2) =>
    fitsBefore_of_mem_left hc
  rw [← operandsAt_atBase, atBase_residueOf hu]
  rw [hlefts] at hfits ⊢
  refine operandsAt_residueEntries_of_mem hfits ?_ (List.mem_map.2 ⟨o, ho, rfl⟩)
  rw [List.map_map]
  change (Operator.centrals.map id).Nodup
  decide

end Central

/-- Entries at the base key of an identity hold the identity, if the tree does. -/
theorem mem_identities_atBase {i : Identity} :
    i ∈ table.identities (table.atBase i.base t) ↔ i ∈ table.identities t := by
  constructor
  · intro hi
    obtain ⟨e, he, rfl⟩ := List.mem_map.1 hi
    exact List.mem_map_of_mem (List.mem_filter.1 he).1
  · intro hi
    obtain ⟨e, he, rfl⟩ := List.mem_map.1 hi
    exact List.mem_map_of_mem (List.mem_filter.2 ⟨he, by simp [baseOf]⟩)

namespace CentralOnly

variable (h : CentralOnly table u)

include h

/-- The identities are those of central operators. -/
theorem isCentral : ∀ i ∈ table.identities u, i.operator.isCentral = true := by
  intro i hi
  obtain ⟨e, he, rfl⟩ := List.mem_map.1 hi
  exact h.central e he

/-- Each identity leaves something. -/
theorem left_ne_nil {i : Identity} (hi : i ∈ table.identities u) :
    (table.apply i.operator none (table.operandsAt i u)).2 ≠ [] := by
  have hfrom {e : String × Value} (he : e ∈ u.filter fun e => table.identityOf e.1 == i) :
      e ∈ u ∧ table.identityOf e.1 = i := by simpa using List.mem_filter.1 he
  rw [operandsAt_eq_flatMap]
  refine apply_none_ne_nil table (h.isCentral i hi) (fun v hv => ?_) fun hnil => ?_
  · obtain ⟨e, he, hv⟩ := List.mem_flatMap.1 hv
    obtain ⟨he, hidentity⟩ := hfrom he
    exact hidentity ▸ h.taken e he v hv
  · obtain ⟨e, he, rfl⟩ := List.mem_map.1 hi
    exact h.present e he (List.flatMap_eq_nil_iff.1 hnil e (List.mem_filter.2 ⟨he, by simp⟩))

/-- The residue has the identities of the tree. -/
theorem mem_identities_residueOf (i : Identity) :
    i ∈ table.identities (table.residueOf u) ↔ i ∈ table.identities u := by
  have hu := h.isCentral
  rw [← mem_identities_atBase, atBase_residueOf hu,
    mem_identities_residueEntries fun _ => fitsBefore_of_mem_left]
  constructor
  · rintro ⟨c, hc, hleft, hi⟩
    rw [← hi]
    exact declared_of_mem_left hc hleft
  · intro hi
    refine ⟨(i.operator, (table.apply i.operator none (table.operandsAt i u)).2), ?_,
      h.left_ne_nil hi, rfl⟩
    rw [applyEach_none fun _ => isCentral_of_mem_centralContents]
    exact List.mem_map.2 ⟨(i.operator, table.operandsAt i u),
      List.mem_map.2 ⟨i.operator, Operator.mem_centrals_iff.2 (hu i hi), rfl⟩, rfl⟩

/-- The residue has the base keys of the tree in their order. -/
theorem bases_residueOf : table.bases (table.residueOf u) = table.bases u := by
  have hu := h.isCentral
  rw [bases, residueOf, List.map_flatMap]
  refine eraseDups_flatMap_of_nodup (nodup_eraseDups _) fun base hbase => ?_
  have hblock := atBase_residueOf hu base
  rw [← hblock]
  constructor
  · obtain ⟨e, he, rfl⟩ := mem_bases_iff.1 hbase
    have hi : table.identityOf e.1 ∈ table.identities (table.residueOf u) :=
      (h.mem_identities_residueOf _).2 (List.mem_map_of_mem he)
    obtain ⟨e', he', -⟩ := List.mem_map.1 (mem_identities_atBase.2 hi)
    exact List.ne_nil_of_mem (List.mem_map_of_mem he')
  · intro b hb
    obtain ⟨e, he, rfl⟩ := List.mem_map.1 hb
    simpa using (List.mem_filter.1 he).2

/-- Where the arithmetic stays exact, the residue comes to the same as the tree. -/
theorem exchangeable (t : Tree) (hexact : ∀ base ∈ table.bases u, ∀ o ∈ [Operator.multiply, .add],
      o.FoldsExactly (table.operandsAt ⟨o, base⟩ u) ∧
        o.FoldsExactly (table.operandsAt ⟨o, base⟩ (t ++ u))) :
    Exchangeable table t u (table.residueOf u) where
  central := h.isCentral
  identities_iff := h.mem_identities_residueOf
  bases_eq := h.bases_residueOf
  apply_eq base o ho value := by
    have hcentral := Operator.mem_centrals_iff.1 ho
    -- Exactness is asked for at the base keys of the tree, and elsewhere neither tree has operands.
    by_cases hi : (⟨o, base⟩ : Identity) ∈ table.identities u
    · have hbase : base ∈ table.bases u := base_mem_bases hi
      have hfolds : o.FoldsExactly (table.operandsAt ⟨o, base⟩ u) ∧
          o.FoldsExactly (table.operandsAt ⟨o, base⟩ t ++ table.operandsAt ⟨o, base⟩ u) := by
        rw [← operandsAt_append]
        cases o with
        | multiply | add => exact hexact base hbase _ (by simp)
        | _ => exact ⟨trivial, trivial⟩
      rw [operandsAt_append, operandsAt_append, operandsAt_residueOf h.isCentral ho]
      exact apply_append_left table hcentral hfolds.1 hfolds.2 value
    · have hi' := mt (h.mem_identities_residueOf _).1 hi
      simp [operandsAt_eq_nil hi, operandsAt_eq_nil hi']

end CentralOnly

end Residue

/-- Without custom operators layers are reduced as the entries of all of them. -/
theorem reduceLayers_empty (layers : List Tree) :
    empty.reduceLayers layers = empty.reduce layers.flatten := by
  refine Option.ext fun r => ?_
  rw [reduceLayers, ← reduces_iff_reduce, ← reduces_iff_reduce]
  exact (reduces_congr (sameOperands_stack empty layers) r).symm

/-- Residue composes: layers that hold only operands of central operators, each with some operands and all
of them fit, may be reduced on their own before they are laid over others. Nothing is asked of the layers
below but that, at the base keys of the layers above, all numbers to be added or multiplied are words and
are folded into words all along. -/
theorem residue_composes (below above : List Tree) (habove : CentralOnly empty above.flatten)
    (hexact : ∀ base ∈ empty.bases above.flatten, ∀ o ∈ [Operator.multiply, .add],
      o.FoldsExactly (empty.operandsAt ⟨o, base⟩ above.flatten) ∧
        o.FoldsExactly (empty.operandsAt ⟨o, base⟩ (below ++ above).flatten)) :
    ∃ residue r, empty.reduceLayers above = some residue ∧
      empty.reduceLayers (below ++ [residue]) = some r ∧
        empty.reduceLayers (below ++ above) = some r := by
  rw [List.flatten_append] at hexact
  obtain ⟨r, hr, -⟩ := exists_reduce (below.flatten ++ above.flatten)
  have hsame : empty.reduceLevel empty.reduce (below.flatten ++ empty.residueOf above.flatten) =
      empty.reduceLevel empty.reduce (below.flatten ++ above.flatten) :=
    (habove.exchangeable below.flatten hexact).reduceLevel fun _ _ _ => ne_custom_of_mem_contentsAt
  rw [reduceLevel_reduce, reduceLevel_reduce] at hsame
  refine ⟨empty.residueOf above.flatten, r, ?_, ?_, ?_⟩
  · rw [reduceLayers_empty, ← reduceLevel_reduce, reduceLevel_central habove.isCentral]
  · rw [reduceLayers_empty, List.flatten_append, List.flatten_singleton, hsame, hr]
  · rw [reduceLayers_empty, List.flatten_append, hr]

/-- Two layers of operands over a number with operands of its own, an array beside a patch, an operand of the
wrong type and a merge with the whole tree. -/
theorem residue_composes_over_mixed_layers :
    let below : List Tree := [[("hp", .number (.int 7)), ("+hp", .number (.int 1)),
        ("#*hp", .array [.number (.int 2), .string "x"]), ("*>", .tree [("+hp", .number (.int 100))])],
      [("<*items", .tree [("a", .null)]), ("items", .array [.string "a"]), ("+>items", .null)]]
    let above : List Tree := [[("+hp", .number (.int 3)), ("<+items", .array [.string "b"]),
        ("#+>gold", .array [.array [.null], .array []])],
      [("#*hp", .array [.number (.int 5), .number (.int (-1))]), ("<+items", .array [.string "c"]),
        ("#+hp", .array [.number (.int 4)])]]
    let residue : Tree := [("*hp", .number (.int (-5))), ("+hp", .number (.int 7)),
      ("<+items", .array [.string "c", .string "b"]), ("+>gold", .array [.null])]
    empty.reduceLayers above = some residue ∧ ∃ r, empty.reduceLayers (below ++ [residue]) = some r ∧
      empty.reduceLayers (below ++ above) = some r := by
  intro below above residue
  have hresidue : empty.reduceLayers above = some residue := by
    rw [reduceLayers_empty]
    exact reduces_iff_reduce.1 ⟨1, by decide +kernel⟩
  obtain ⟨residue', r, hresidue', hr⟩ := residue_composes below above
    ⟨by decide +kernel, by decide +kernel, by decide +kernel⟩ (by decide +kernel)
  obtain rfl := Option.some.inj (hresidue'.symm.trans hresidue)
  exact ⟨hresidue, r, hr⟩

end OperatorTable

end Overlay
