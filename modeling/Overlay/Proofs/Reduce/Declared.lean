import Overlay.Proofs.Reduce.Position
import Overlay.Proofs.Stack.Conservation

/-!
# What a level is reduced from

The keys of a tree are collected by base key and then by operator, at the positions of the keys.
What comes out of it can be told from the identities of the tree and their operands: the operators
at a base key are those of its identities, in first-seen order, and their positions count by their
order alone. So a level is reduced from its identities in first-seen order, each with all its
operands, and from nothing else in the tree.
-/

namespace Overlay

/-- Operators with their operands, without the positions. -/
abbrev Contents := List (Operator × Operands)

/-- An operator with its operands, without the position. -/
def Application.content (a : Application) : Operator × Operands := (a.operator, a.operands)

/-- Operators with their operands, numbered in order. -/
def numbered (contents : Contents) : List Application :=
  contents.zipIdx.map fun (c, position) => ⟨c.1, c.2, position⟩

/-- Positions that increase along a list. -/
def Increasing (as : List Application) : Prop :=
  as.Pairwise fun a b => a.position < b.position

section Numbering

variable {as : List Application}

/-- Numbering operators gives them positions and changes nothing else. -/
theorem exists_renumber (h : Increasing as) :
    ∃ f, KeepsOrder f as ∧ as.map (Application.renumber f) = numbered (as.map Application.content) := by
  have hnodup : (as.map Application.position).Nodup := by
    rw [List.Nodup, List.pairwise_map]
    exact h.imp fun hab => Nat.ne_of_lt hab
  have hindex (i : Nat) (hi : i < as.length) :
      (as.map Application.position).idxOf as[i].position = i := by
    have hi' : i < (as.map Application.position).length := by simpa using hi
    have hget : as[i].position = (as.map Application.position)[i] := by simp
    rw [hget]
    exact hnodup.idxOf_getElem i hi'
  refine ⟨fun p => (as.map Application.position).idxOf p, fun a ha b hb hab => ?_, ?_⟩
  · obtain ⟨i, hi, rfl⟩ := List.getElem_of_mem ha
    obtain ⟨j, hj, rfl⟩ := List.getElem_of_mem hb
    simp only [hindex i hi, hindex j hj]
    by_contra hji
    rcases Nat.lt_or_eq_of_le (Nat.le_of_not_lt hji) with hlt | rfl
    · have := List.pairwise_iff_getElem.1 h j i hj hi hlt
      omega
    · omega
  · refine List.ext_getElem (by simp [numbered]) fun i hi _ => ?_
    have hi' : i < as.length := by simpa using hi
    simp [numbered, Application.renumber, Application.content, hindex i hi']

/-- Numbering keeps the operators and their operands. -/
@[simp] theorem map_content_numbered (contents : Contents) :
    (numbered contents).map Application.content = contents := by
  rw [numbered, List.map_map]
  exact List.zipIdx_map_fst 0 contents

/-- A numbered operator is one of the operators. -/
theorem content_mem_of_mem_numbered {contents : Contents} {a : Application}
    (ha : a ∈ numbered contents) : a.content ∈ contents := by
  have hmem := List.mem_map_of_mem (f := Application.content) ha
  rwa [map_content_numbered] at hmem

/-- Numbering keeps the operators. -/
@[simp] theorem map_operator_numbered (contents : Contents) :
    (numbered contents).map Application.operator = contents.map Prod.fst := by
  conv_rhs => rw [← map_content_numbered contents, List.map_map]
  rfl

/-- Numbering gives increasing positions. -/
theorem increasing_numbered (contents : Contents) : Increasing (numbered contents) := by
  have hpositions : ((numbered contents).map Application.position).Pairwise (· < ·) := by
    have hsnd : (numbered contents).map Application.position = contents.zipIdx.map Prod.snd := by
      rw [numbered, List.map_map]
      rfl
    rw [hsnd, List.zipIdx_map_snd]
    exact List.pairwise_lt_range'
  exact List.pairwise_map.1 hpositions

variable (table : OperatorTable) (inner : Reduction)

/-- A base key is reduced from its operators and their operands, whatever their positions. -/
theorem reduceBase_eq_numbered (h : Increasing as) (base : String) :
    table.reduceBase inner base as =
      table.reduceBase inner base (numbered (as.map Application.content)) := by
  obtain ⟨f, hf, hnumbered⟩ := exists_renumber h
  rw [← hnumbered, table.reduceBase_renumber inner base hf]

/-- Merges with the whole tree are made from their operators and operands, whatever their
positions. -/
theorem foldlM_mergeRootOperands_eq_numbered (h : Increasing as) (t : Tree) :
    (outwards as).foldlM (table.mergeRootOperands inner) t =
      (outwards (numbered (as.map Application.content))).foldlM (table.mergeRootOperands inner)
        t := by
  obtain ⟨f, hf, hnumbered⟩ := exists_renumber h
  rw [← hnumbered, outwards_renumber hf, List.foldlM_map]
  rfl

end Numbering

section Collecting

/-- The operators that contributions at positions declare. -/
def applicationsOf (cs : List (Contribution × Nat)) : List Application :=
  cs.foldl (fun as c => c.1.declare c.2 as) []

/-- Merges with the whole tree are declared apart from all other contributions. -/
theorem foldl_declare (cs : List (Contribution × Nat)) (level : Level) :
    cs.foldl (fun level c => level.declare c.1 c.2) level =
      ⟨(cs.filter fun c => !c.1.key.isRootMerge).foldl (fun ts c => c.1.declareAtBase c.2 ts)
          level.targets,
        (cs.filter fun c => c.1.key.isRootMerge).foldl (fun as c => c.1.declare c.2 as)
          level.rootMerges⟩ := by
  induction cs generalizing level with
  | nil => rfl
  | cons c rest ih =>
    rw [List.foldl_cons, ih, Level.declare]
    by_cases h : c.1.key.isRootMerge = true <;> simp [h]

/-- Each base key has the operators that its contributions declare. -/
theorem declareAll_eq (cs : List (Contribution × Nat)) :
    Level.declareAll cs =
      ⟨((cs.filter fun c => !c.1.key.isRootMerge).map fun c => c.1.key.base).eraseDups.map fun base =>
          ⟨base, applicationsOf
            ((cs.filter fun c => !c.1.key.isRootMerge).filter fun c => c.1.key.base == base)⟩,
        applicationsOf (cs.filter fun c => c.1.key.isRootMerge)⟩ := by
  rw [Level.declareAll, foldl_declare]
  congr 1
  exact foldl_amend_eq_map Target.base (fun c : Contribution × Nat => c.1.key.base)
    (fun c => ⟨c.1.key.base, c.1.declare c.2 []⟩)
    (fun c t => { t with applications := c.1.declare c.2 t.applications })
    (fun base cs => ⟨base, applicationsOf cs⟩) (fun _ _ => rfl) (fun _ => rfl)
    (fun c base cs _ => by simp [applicationsOf]) _

/-- An operator with all operands of contributions, at the position of the first. -/
def Application.ofContributions (operator : Operator) (cs : List (Contribution × Nat)) :
    Application :=
  ⟨operator, cs.flatMap fun c => c.1.operands, (cs.head?.map Prod.snd).getD 0⟩

/-- A further contribution adds its operands and leaves the position. -/
theorem ofContributions_concat (operator : Operator) (c : Contribution × Nat)
    {cs : List (Contribution × Nat)} (h : cs ≠ []) :
    Application.ofContributions operator (cs ++ [c]) =
      { Application.ofContributions operator cs with
        operands := (Application.ofContributions operator cs).operands ++ c.1.operands } := by
  cases cs with
  | nil => exact absurd rfl h
  | cons d rest => simp [Application.ofContributions]

/-- Each operator has all operands of its contributions, at the position of the first. -/
theorem applicationsOf_eq (cs : List (Contribution × Nat)) :
    applicationsOf cs = (cs.map fun c => c.1.key.operator).eraseDups.map fun operator =>
      Application.ofContributions operator (cs.filter fun c => c.1.key.operator == operator) :=
  foldl_amend_eq_map Application.operator (fun c : Contribution × Nat => c.1.key.operator)
    (fun c => ⟨c.1.key.operator, c.1.operands, c.2⟩)
    (fun c a => { a with operands := a.operands ++ c.1.operands })
    Application.ofContributions (fun _ _ => rfl) (fun c => by simp [Application.ofContributions])
    (fun c operator _ h => (ofContributions_concat operator c h).symm) cs

/-- Declaring an operator moves no other one and may add its own position. -/
theorem map_position_declare (c : Contribution) (position : Nat) (as : List Application) :
    (c.declare position as).map Application.position = as.map Application.position ∨
      (c.declare position as).map Application.position =
        as.map Application.position ++ [position] := by
  apply map_amend
  intro a
  rfl

/-- Operators are declared at increasing positions. -/
theorem increasing_applicationsOf {cs : List (Contribution × Nat)}
    (h : cs.Pairwise fun c d => c.2 < d.2) : Increasing (applicationsOf cs) := by
  have hpositions : ((applicationsOf cs).map Application.position).Pairwise (· < ·) ∧
      ∀ p ∈ (applicationsOf cs).map Application.position, ∃ c ∈ cs, c.2 = p := by
    induction cs using List.reverseRecOn with
    | nil => simp [applicationsOf]
    | append_singleton cs c ih =>
      obtain ⟨hcs, -, hlast⟩ := List.pairwise_append.1 h
      obtain ⟨hordered, hfrom⟩ := ih hcs
      have hstep : applicationsOf (cs ++ [c]) = c.1.declare c.2 (applicationsOf cs) := by
        simp [applicationsOf]
      rw [hstep]
      rcases map_position_declare c.1 c.2 (applicationsOf cs) with hsame | hnew
      · rw [hsame]
        refine ⟨hordered, fun p hp => ?_⟩
        obtain ⟨d, hd, hdp⟩ := hfrom p hp
        exact ⟨d, List.mem_append_left _ hd, hdp⟩
      · rw [hnew]
        refine ⟨List.pairwise_append.2 ⟨hordered, by simp, fun p hp q hq => ?_⟩, fun p hp => ?_⟩
        · obtain ⟨d, hd, rfl⟩ := hfrom p hp
          rw [List.mem_singleton.1 hq]
          exact hlast d hd c (List.mem_singleton_self c)
        · rcases List.mem_append.1 hp with hp | hp
          · obtain ⟨d, hd, hdp⟩ := hfrom p hp
            exact ⟨d, List.mem_append_left _ hd, hdp⟩
          · exact ⟨c, by simp, (List.mem_singleton.1 hp).symm⟩
  exact List.pairwise_map.1 hpositions.1

end Collecting

/-- Merges with the whole tree are told apart by their operators. -/
theorem Identity.eq_of_isRootMerge {i j : Identity} (hi : i.isRootMerge = true)
    (hj : j.isRootMerge = true) (h : i.operator = j.operator) : i = j := by
  simp only [isRootMerge, Bool.and_eq_true, List.isEmpty_iff] at hi hj
  exact Identity.ext h (String.toList_inj.1 (hi.2.trans hj.2.symm))

/-- The operators of declarations with their operands. -/
def contentsOf (declared : List (Identity × Operands)) : Contents :=
  declared.map fun d => (d.1.operator, d.2)

/-- The base keys of declarations, in first-seen order. -/
def basesOf (declared : List (Identity × Operands)) : List String :=
  ((declared.filter fun d => !d.1.isRootMerge).map fun d => d.1.base).eraseDups

/-- The operators that are declared at a base key, with their operands. -/
def contentsAt (declared : List (Identity × Operands)) (base : String) : Contents :=
  contentsOf ((declared.filter fun d => !d.1.isRootMerge).filter fun d => d.1.base == base)

/-- The merges with the whole tree that are declared, with their operands. -/
def rootContents (declared : List (Identity × Operands)) : Contents :=
  contentsOf (declared.filter fun d => d.1.isRootMerge)

namespace OperatorTable

variable (table : OperatorTable) (inner : Reduction)

/-- The identities of a tree in first-seen order, each with all its operands. -/
def declared (t : Tree) : List (Identity × Operands) :=
  (table.identities t).eraseDups.map fun i => (i, table.operandsAt i t)

/-- Reduce a level from what is declared in it, the operators at each base key being numbered in
order. -/
def reduceDeclared (declared : List (Identity × Operands)) : Option Tree := do
  let keyed := declared.filter fun d => !d.1.isRootMerge
  let root := declared.filter fun d => d.1.isRootMerge
  let reduced ← (keyed.map fun d => d.1.base).eraseDups.mapM fun base =>
    table.reduceBase inner base (numbered (contentsOf (keyed.filter fun d => d.1.base == base)))
  (outwards (numbered (contentsOf root))).foldlM (table.mergeRootOperands inner)
    (Tree.ofEntries reduced.flatten)

/-- The contributions of a tree, each with the position of its key. -/
def placed (t : Tree) : List (Contribution × Nat) := (t.map (Contribution.ofEntry table)).zipIdx

/-- Contributions are placed in the order of the keys. -/
theorem pairwise_placed (t : Tree) : (table.placed t).Pairwise fun c d => c.2 < d.2 := by
  have hpositions : ((table.placed t).map Prod.snd).Pairwise (· < ·) := by
    rw [placed, List.zipIdx_map_snd]
    exact List.pairwise_lt_range'
  exact List.pairwise_map.1 hpositions

/-- Picking out placed contributions picks out the contributions. -/
theorem map_fst_filter_placed (p : Contribution → Bool) (t : Tree) :
    ((table.placed t).filter fun c => p c.1).map Prod.fst =
      (t.map (Contribution.ofEntry table)).filter p := by
  have hfilter := List.filter_map (f := Prod.fst) (p := p) (l := table.placed t)
  rw [placed, List.zipIdx_map_fst] at hfilter
  exact hfilter.symm

/-- The operators that contributions declare do not depend on the positions. -/
theorem contents_applicationsOf_eq (cs : List (Contribution × Nat)) :
    (applicationsOf cs).map Application.content =
      (cs.map fun c => c.1.key.operator).eraseDups.map fun operator =>
        (operator, ((cs.map Prod.fst).filter fun c => c.key.operator == operator).flatMap
          Contribution.operands) := by
  rw [applicationsOf_eq, List.map_map]
  apply List.map_congr_left
  intro operator _
  rw [List.filter_map, List.flatMap_map]
  rfl

/-- Picking out placed contributions picks out their identities. -/
theorem map_identity_filter_placed {γ : Type} (g : Identity → γ) (p : Identity → Bool) (t : Tree) :
    ((table.placed t).filter fun c => p c.1.identity).map (fun c => g c.1.identity) =
      ((table.identities t).filter p).map g := by
  have hfilter := List.filter_map (f := Contribution.identity) (p := p)
    (l := t.map (Contribution.ofEntry table))
  rw [List.map_map] at hfilter
  have hpicked := map_fst_filter_placed table (fun c => p c.identity) t
  have hmap := congrArg (List.map fun c => g c.identity) hpicked
  rw [List.map_map] at hmap
  refine hmap.trans ?_
  change _ = (((t.map (Contribution.identity ∘ Contribution.ofEntry table))).filter p).map g
  rw [hfilter, List.map_map]
  rfl

/-- Picking out identities picks out their declarations. -/
theorem filter_declared (p : Identity → Bool) (t : Tree) :
    (table.declared t).filter (fun d => p d.1) =
      ((table.identities t).filter p).eraseDups.map fun i => (i, table.operandsAt i t) := by
  rw [← filter_eraseDups, declared, List.filter_map]
  rfl

/-- Picking out entries picks out what they declare. -/
theorem declared_filter (p : Identity → Bool) (t : Tree) :
    table.declared (t.filter fun e => p (table.identityOf e.1)) =
      (table.declared t).filter fun d => p d.1 := by
  have hidentities : table.identities (t.filter fun e => p (table.identityOf e.1)) =
      (table.identities t).filter p := (List.filter_map (f := fun e : String × Value =>
        table.identityOf e.1) (p := p) (l := t)).symm
  rw [declared, hidentities, filter_declared]
  apply List.map_congr_left
  intro i hi
  rw [operandsAt_filter (List.mem_filter.1 (List.mem_eraseDups.1 hi)).2]

/-- Where the operator tells identities apart, operators are declared with the operands of their
identities, in first-seen order. -/
theorem contents_applicationsOf {p : Identity → Bool}
    (hp : ∀ i j, p i = true → p j = true → i.operator = j.operator → i = j) (t : Tree) :
    (applicationsOf ((table.placed t).filter fun c => p c.1.identity)).map Application.content =
      contentsOf ((table.declared t).filter fun d => p d.1) := by
  have hpicked := map_fst_filter_placed table (fun c => p c.identity) t
  have hoperators := map_identity_filter_placed table Identity.operator p t
  have hapart : ∀ i ∈ (table.identities t).filter p, ∀ j ∈ (table.identities t).filter p,
      i.operator = j.operator → i = j :=
    fun i hi j hj => hp i j (List.mem_filter.1 hi).2 (List.mem_filter.1 hj).2
  rw [contents_applicationsOf_eq, hpicked]
  refine (congrArg (fun l => (List.eraseDups l).map _) hoperators).trans ?_
  rw [eraseDups_map_of_injOn hapart, filter_declared, contentsOf, List.map_map, List.map_map]
  apply List.map_congr_left
  intro i hi
  have hpi : p i = true := (List.mem_filter.1 (List.mem_eraseDups.1 hi)).2
  -- Among the identities that are picked out, an operator belongs to one only.
  have hmembers : ((t.map (Contribution.ofEntry table)).filter fun c => p c.identity).filter
      (fun c => c.key.operator == i.operator) = table.membersAt i t := by
    rw [List.filter_filter, membersAt]
    apply List.filter_congr
    intro c _
    rw [Bool.eq_iff_iff, Bool.and_eq_true, beq_iff_eq, beq_iff_eq]
    exact ⟨fun h => hp _ _ h.2 hpi h.1, fun h => ⟨congrArg Identity.operator h, h ▸ hpi⟩⟩
  simp only [Function.comp_apply, operandsAt, hmembers]

/-- The base keys of contributions that are picked out are those of the declarations. -/
theorem eraseDups_bases_placed (p : Identity → Bool) (t : Tree) :
    (((table.placed t).filter fun c => p c.1.identity).map fun c => c.1.key.base).eraseDups =
      (((table.declared t).filter fun d => p d.1).map fun d => d.1.base).eraseDups := by
  have hbases := map_identity_filter_placed table Identity.base p t
  refine (congrArg List.eraseDups hbases).trans ?_
  rw [filter_declared, List.map_map]
  exact (eraseDups_map_eraseDups Identity.base _).symm

/-- The operators at a base key are those of its identities, in first-seen order, each with all its
operands. -/
theorem contentsAt_declared (t : Tree) (base : String) :
    contentsAt (table.declared t) base =
      ((table.identities t).filter fun i => i.base == base && !i.isRootMerge).eraseDups.map
        fun i => (i.operator, table.operandsAt i t) := by
  rw [contentsAt, contentsOf, List.filter_filter,
    filter_declared table (fun i => i.base == base && !i.isRootMerge), List.map_map]
  rfl

/-- The operators of a kind at a base key are those of its identities of this kind. -/
theorem filter_contentsAt (p : Operator → Bool) (t : Tree) (base : String) :
    (contentsAt (table.declared t) base).filter (fun c => p c.1) =
      ((table.identities t).filter fun i =>
        p i.operator && (i.base == base && !i.isRootMerge)).eraseDups.map
          fun i => (i.operator, table.operandsAt i t) := by
  rw [contentsAt_declared, List.filter_map]
  change ((List.eraseDups _).filter fun i : Identity => p i.operator).map _ = _
  rw [filter_eraseDups, List.filter_filter]

/-- The merges with the whole tree are those of its identities, in first-seen order, each with all
its operands. -/
theorem rootContents_declared (t : Tree) :
    rootContents (table.declared t) =
      ((table.identities t).filter Identity.isRootMerge).eraseDups.map
        fun i => (i.operator, table.operandsAt i t) := by
  rw [rootContents, contentsOf, filter_declared, List.map_map]
  rfl

/-- The base keys are those of the identities that are no merges with the whole tree. -/
theorem basesOf_declared (t : Tree) :
    basesOf (table.declared t) =
      (((table.identities t).filter fun i => !i.isRootMerge).map Identity.base).eraseDups := by
  rw [basesOf, filter_declared table fun i => !i.isRootMerge, List.map_map]
  exact eraseDups_map_eraseDups Identity.base _

/-- A base key is declared by each identity that is no merge with the whole tree. -/
theorem mem_basesOf_iff {t : Tree} {base : String} : base ∈ basesOf (table.declared t) ↔
    ∃ i ∈ table.identities t, i.isRootMerge = false ∧ i.base = base := by
  simp [basesOf_declared, and_assoc]

/-- What is declared at a base key is the operators of its identities with their operands. -/
theorem mem_contentsAt_iff {t : Tree} {base : String} {c : Operator × Operands} :
    c ∈ contentsAt (table.declared t) base ↔ ∃ i ∈ table.identities t, i.base = base ∧
      i.isRootMerge = false ∧ (i.operator, table.operandsAt i t) = c := by
  simp [contentsAt_declared, and_assoc]

/-- What is declared for the whole tree is its merges with their operands. -/
theorem mem_rootContents_iff {t : Tree} {c : Operator × Operands} :
    c ∈ rootContents (table.declared t) ↔ ∃ i ∈ table.identities t, i.isRootMerge = true ∧
      (i.operator, table.operandsAt i t) = c := by
  simp [rootContents_declared, and_assoc]

/-- Nothing is declared for the whole tree if no identity is a merge with it. -/
theorem rootContents_eq_nil {t : Tree} (h : ∀ i ∈ table.identities t, i.isRootMerge = false) :
    rootContents (table.declared t) = [] := by
  refine List.eq_nil_iff_forall_not_mem.2 fun c hc => ?_
  obtain ⟨i, hi, hroot, -⟩ := (mem_rootContents_iff table).1 hc
  rw [h i hi] at hroot
  exact Bool.false_ne_true hroot

/-- Nothing is declared at a base key that is not among those of the identities. -/
theorem contentsAt_eq_nil {t : Tree} {base : String} (h : base ∉ basesOf (table.declared t)) :
    contentsAt (table.declared t) base = [] := by
  refine List.eq_nil_iff_forall_not_mem.2 fun c hc => h ?_
  obtain ⟨i, hi, hbase, hroot, -⟩ := (mem_contentsAt_iff table).1 hc
  exact (mem_basesOf_iff table).2 ⟨i, hi, hroot, hbase⟩

/-- No base key is declared twice. -/
theorem nodup_basesOf (t : Tree) : (basesOf (table.declared t)).Nodup := by
  rw [basesOf]
  exact nodup_eraseDups _

/-- No operator is declared twice at a base key. -/
theorem nodup_contentsAt (t : Tree) (base : String) :
    ((contentsAt (table.declared t) base).map Prod.fst).Nodup := by
  rw [contentsAt_declared, List.map_map]
  refine (nodup_eraseDups _).map_on fun i hi j hj hoperator => ?_
  have hbase {k : Identity} (hk : k ∈ ((table.identities t).filter fun i =>
      i.base == base && !i.isRootMerge).eraseDups) : k.base = base := by
    have hk := (List.mem_filter.1 (List.mem_eraseDups.1 hk)).2
    rw [Bool.and_eq_true, beq_iff_eq] at hk
    exact hk.1
  exact Identity.ext hoperator ((hbase hi).trans (hbase hj).symm)

/-- No merge with the whole tree is declared twice. -/
theorem nodup_rootContents (t : Tree) : ((rootContents (table.declared t)).map Prod.fst).Nodup := by
  rw [rootContents_declared, List.map_map]
  have hroot {i : Identity} (hi : i ∈ ((table.identities t).filter
      Identity.isRootMerge).eraseDups) : i.isRootMerge = true :=
    (List.mem_filter.1 (List.mem_eraseDups.1 hi)).2
  exact (nodup_eraseDups _).map_on fun i hi j hj =>
    Identity.eq_of_isRootMerge (hroot hi) (hroot hj)

/-- What is declared for the whole tree are merges. -/
theorem isMerge_of_mem_rootContents {t : Tree} {c : Operator × Operands}
    (hc : c ∈ rootContents (table.declared t)) : c.1.isMerge = true := by
  obtain ⟨i, -, hroot, rfl⟩ := (mem_rootContents_iff table).1 hc
  exact (Bool.and_eq_true_iff.1 hroot).1

/-- Every operator that is read fits before its base key. -/
theorem fitsBefore_of_mem_identities {t : Tree} {i : Identity} (hi : i ∈ table.identities t) :
    i.operator.FitsBefore table i.base.toList := by
  obtain ⟨e, -, rfl⟩ := List.mem_map.1 hi
  exact Key.writable_parse table e.1

/-- Every operator that is declared fits before its base key. -/
theorem fitsBefore_of_mem_contentsAt {t : Tree} {base : String} {c : Operator × Operands}
    (hc : c ∈ contentsAt (table.declared t) base) : c.1.FitsBefore table base.toList := by
  obtain ⟨i, hi, rfl, -, rfl⟩ := (mem_contentsAt_iff table).1 hc
  exact fitsBefore_of_mem_identities table hi

/-- The entries that the base keys of a tree are reduced to, in the order in which they are
written. -/
def levelEntries (t : Tree) : Option (List (String × Value)) :=
  ((Level.ofTree table t).targets.mapM fun target =>
    table.reduceBase inner target.base target.applications).map List.flatten

/-- The operators that are collected at a base key are those that are declared there. -/
theorem contents_collected (t : Tree) (base : String) :
    (applicationsOf (((table.placed t).filter fun c => !c.1.key.isRootMerge).filter
      fun c => c.1.key.base == base)).map Application.content =
        contentsAt (table.declared t) base := by
  have hapart : ∀ i j : Identity, (i.base == base && !i.isRootMerge) = true →
      (j.base == base && !j.isRootMerge) = true → i.operator = j.operator → i = j := by
    intro i j hi hj hoperator
    simp only [Bool.and_eq_true, beq_iff_eq] at hi hj
    exact Identity.ext hoperator (hi.1.trans hj.1.symm)
  have hcontents := contents_applicationsOf table hapart t
  rw [contentsAt, List.filter_filter, List.filter_filter]
  exact hcontents

/-- Operators are collected at a base key in the order of their positions. -/
theorem increasing_collected (t : Tree) (base : String) :
    Increasing (applicationsOf (((table.placed t).filter fun c => !c.1.key.isRootMerge).filter
      fun c => c.1.key.base == base)) :=
  increasing_applicationsOf (((table.pairwise_placed t).filter _).filter _)

/-- A target has the operators that are declared at its base key, in the order of their positions. -/
theorem collected_of_mem_targets {t : Tree} {target : Target}
    (h : target ∈ (Level.ofTree table t).targets) :
    target.applications.map Application.content = contentsAt (table.declared t) target.base ∧
      Increasing target.applications := by
  have hlevel : Level.ofTree table t = Level.declareAll (table.placed t) := rfl
  rw [hlevel, declareAll_eq] at h
  obtain ⟨base, -, rfl⟩ := List.mem_map.1 h
  exact ⟨table.contents_collected t base, table.increasing_collected t base⟩

/-- The entries of a level are those of the declared base keys, in first-seen order, the operators
at each being numbered in order. -/
theorem levelEntries_eq (t : Tree) :
    table.levelEntries inner t = ((basesOf (table.declared t)).mapM fun base =>
      table.reduceBase inner base (numbered (contentsAt (table.declared t) base))).map
        List.flatten := by
  have hbase (base : String) :
      table.reduceBase inner base (applicationsOf (((table.placed t).filter
        fun c => !c.1.key.isRootMerge).filter fun c => c.1.key.base == base)) =
      table.reduceBase inner base (numbered (contentsAt (table.declared t) base)) := by
    rw [reduceBase_eq_numbered table inner (table.increasing_collected t base),
      table.contents_collected t base]
  have hbases : (((table.placed t).filter fun c => !c.1.key.isRootMerge).map
      fun c => c.1.key.base).eraseDups = basesOf (table.declared t) :=
    eraseDups_bases_placed table (fun i => !i.isRootMerge) t
  have hlevel : Level.ofTree table t = Level.declareAll (table.placed t) := rfl
  rw [levelEntries, hlevel, declareAll_eq]
  simp only [List.mapM_map, Function.comp_def, hbases, hbase]

/-- The merges with the whole tree are made from what is declared for it. -/
theorem foldlM_rootMerges_eq (t r : Tree) :
    (outwards (Level.ofTree table t).rootMerges).foldlM (table.mergeRootOperands inner) r =
      (outwards (numbered (rootContents (table.declared t)))).foldlM
        (table.mergeRootOperands inner) r := by
  have hcontents := contents_applicationsOf table
    (fun i j (hi : i.isRootMerge = true) hj => Identity.eq_of_isRootMerge hi hj) t
  have hlevel : Level.ofTree table t = Level.declareAll (table.placed t) := rfl
  rw [hlevel, declareAll_eq, foldlM_mergeRootOperands_eq_numbered table inner
    (increasing_applicationsOf ((table.pairwise_placed t).filter _))]
  exact congrArg (fun c => (outwards (numbered c)).foldlM (table.mergeRootOperands inner) r)
    hcontents

/-- A level is reduced to its entries, and then merged with what is declared for the whole
tree. -/
theorem reduceLevel_eq_bind (t : Tree) :
    table.reduceLevel inner t = (table.levelEntries inner t).bind fun entries =>
      (outwards (numbered (rootContents (table.declared t)))).foldlM
        (table.mergeRootOperands inner) (Tree.ofEntries entries) := by
  rw [levelEntries, Option.bind_map, reduceLevel]
  exact Option.bind_congr fun reduced _ => foldlM_rootMerges_eq table inner t _

/-- A level is reduced from the identities of the tree in first-seen order, each with all its
operands. -/
theorem reduceLevel_eq (table : OperatorTable) (inner : Reduction) (t : Tree) :
    table.reduceLevel inner t = table.reduceDeclared inner (table.declared t) := by
  rw [reduceLevel_eq_bind, levelEntries_eq, Option.bind_map]
  rfl

end OperatorTable

end Overlay
