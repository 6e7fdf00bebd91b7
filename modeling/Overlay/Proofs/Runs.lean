import Mathlib.Data.List.Basic
import Mathlib.Data.List.Forall2

/-!
# Runs that may give up

Reduction goes through lists in two ways: it computes something for each element, or it takes a state
through steps, one for each element. Either may give up in between. The laws here say what the outcome
of such a run has from its elements and steps. Of two runs side by side, neither gives up before the other
as long as their steps keep a relation between them.
-/

namespace Overlay

section Each

variable {α β : Type} {f : α → Option β} {a : α} {as bs : List α} {xs : List β}

/-- Computations for the elements of a list are those for the first element and for the others. -/
theorem mapM_cons_eq_some_iff :
    (a :: as).mapM f = some xs ↔ ∃ x rest, f a = some x ∧ as.mapM f = some rest ∧ x :: rest = xs := by
  rw [List.mapM_cons]
  cases f a with
  | none => simp
  | some x => cases as.mapM f <;> simp

/-- Computations that all give a result give their results in order. -/
theorem mapM_eq_some_map {g : α → β} (h : ∀ a ∈ as, f a = some (g a)) :
    as.mapM f = some (as.map g) := by
  induction as with
  | nil => rfl
  | cons a rest ih =>
    have hrest := ih fun b hb => h b (List.mem_cons_of_mem _ hb)
    exact mapM_cons_eq_some_iff.2 ⟨g a, rest.map g, h a List.mem_cons_self, hrest, rfl⟩

/-- If each computation gives a result, they all do. -/
theorem exists_mapM (h : ∀ a ∈ as, ∃ x, f a = some x) : ∃ xs, as.mapM f = some xs := by
  induction as with
  | nil => exact ⟨[], rfl⟩
  | cons a rest ih =>
    obtain ⟨x, hx⟩ := h a List.mem_cons_self
    obtain ⟨xs, hxs⟩ := ih fun b hb => h b (List.mem_cons_of_mem _ hb)
    exact ⟨x :: xs, mapM_cons_eq_some_iff.2 ⟨x, xs, hx, hxs, rfl⟩⟩

/-- Each result of a list of computations comes from an element of the list. -/
theorem exists_of_mem_mapM (h : as.mapM f = some xs) {x : β} (hx : x ∈ xs) :
    ∃ a ∈ as, f a = some x := by
  induction as generalizing xs with
  | nil =>
    obtain rfl := Option.some.inj h
    exact absurd hx List.not_mem_nil
  | cons a rest ih =>
    obtain ⟨y, ys, hy, hys, rfl⟩ := mapM_cons_eq_some_iff.1 h
    rcases List.mem_cons.1 hx with rfl | hx
    · exact ⟨a, List.mem_cons_self, hy⟩
    · obtain ⟨b, hb, hbx⟩ := ih hys hx
      exact ⟨b, List.mem_cons_of_mem _ hb, hbx⟩

/-- Each element of a list has its result among those of the list. -/
theorem exists_mem_of_mapM (h : as.mapM f = some xs) (ha : a ∈ as) : ∃ x ∈ xs, f a = some x := by
  induction as generalizing xs with
  | nil => exact absurd ha List.not_mem_nil
  | cons b rest ih =>
    obtain ⟨y, ys, hy, hys, rfl⟩ := mapM_cons_eq_some_iff.1 h
    rcases List.mem_cons.1 ha with rfl | ha
    · exact ⟨y, List.mem_cons_self, hy⟩
    · obtain ⟨x, hx, hax⟩ := ih hys ha
      exact ⟨x, List.mem_cons_of_mem _ hx, hax⟩

/-- Computations for the elements of a list give the same results in another order. -/
theorem exists_mapM_perm (h : as.Perm bs) (hxs : as.mapM f = some xs) :
    ∃ ys, bs.mapM f = some ys ∧ xs.Perm ys := by
  induction h generalizing xs with
  | nil => exact ⟨xs, hxs, List.Perm.refl xs⟩
  | cons a _ ih =>
    obtain ⟨x, rest, hx, hrest, rfl⟩ := mapM_cons_eq_some_iff.1 hxs
    obtain ⟨ys, hys, hperm⟩ := ih hrest
    exact ⟨x :: ys, mapM_cons_eq_some_iff.2 ⟨x, ys, hx, hys, rfl⟩, hperm.cons x⟩
  | swap a b rest =>
    obtain ⟨y, others, hy, hothers, rfl⟩ := mapM_cons_eq_some_iff.1 hxs
    obtain ⟨x, zs, hx, hzs, rfl⟩ := mapM_cons_eq_some_iff.1 hothers
    have hfront := mapM_cons_eq_some_iff.2 ⟨y, zs, hy, hzs, rfl⟩
    exact ⟨x :: y :: zs, mapM_cons_eq_some_iff.2 ⟨x, y :: zs, hx, hfront, rfl⟩,
      List.Perm.swap x y zs⟩
  | trans _ _ ih ih' =>
    obtain ⟨ys, hys, hperm⟩ := ih hxs
    obtain ⟨zs, hzs, hperm'⟩ := ih' hys
    exact ⟨zs, hzs, hperm.trans hperm'⟩

/-- Elements whose results are empty may be left out. -/
theorem exists_mapM_filter {γ : Type} {f : α → Option (List γ)} {p : α → Bool} {blocks : List (List γ)}
    (hp : ∀ a ∈ as, p a = false → f a = some []) (h : as.mapM f = some blocks) :
    ∃ kept, (as.filter p).mapM f = some kept ∧ blocks.flatten = kept.flatten := by
  induction as generalizing blocks with
  | nil => exact ⟨blocks, h, rfl⟩
  | cons a rest ih =>
    obtain ⟨block, others, hblock, hothers, rfl⟩ := mapM_cons_eq_some_iff.1 h
    obtain ⟨kept, hkept, hflatten⟩ := ih (fun b hb => hp b (List.mem_cons_of_mem _ hb)) hothers
    cases ha : p a with
    | true =>
      rw [List.filter_cons_of_pos ha]
      refine ⟨block :: kept, mapM_cons_eq_some_iff.2 ⟨block, kept, hblock, hkept, rfl⟩, ?_⟩
      rw [List.flatten_cons, List.flatten_cons, hflatten]
    | false =>
      rw [List.filter_cons_of_neg (by simp [ha])]
      obtain rfl := Option.some.inj (hblock.symm.trans (hp a List.mem_cons_self ha))
      exact ⟨kept, hkept, hflatten⟩

/-- Elements that give nothing may be left out. -/
theorem flatMap_filter {γ : Type} {g : α → List γ} {p : α → Bool}
    (hp : ∀ a ∈ as, p a = false → g a = []) : (as.filter p).flatMap g = as.flatMap g := by
  obtain ⟨kept, hkept, hflatten⟩ := exists_mapM_filter (fun a ha hpa => congrArg some (hp a ha hpa))
    (mapM_eq_some_map fun a _ => rfl)
  rw [mapM_eq_some_map fun a _ => rfl] at hkept
  rw [List.flatMap_def, List.flatMap_def, hflatten, ← Option.some.inj hkept]

end Each

section Steps

variable {σ τ α β : Type} {step : σ → α → Option σ} {as : List α} {s s' : σ}

/-- A run keeps what every step keeps. -/
theorem foldlM_keeps {P : σ → Prop} (hstep : ∀ s a s', P s → step s a = some s' → P s') (hs : P s)
    (h : as.foldlM step s = some s') : P s' := by
  induction as generalizing s with
  | nil =>
    obtain rfl := Option.some.inj h
    exact hs
  | cons a rest ih =>
    rw [List.foldlM_cons] at h
    obtain ⟨s₁, hs₁, h⟩ := Option.bind_eq_some_iff.1 h
    exact ih (hstep s a s₁ hs hs₁) h

/-- Runs from related states stay related if each step keeps states related. -/
theorem exists_foldlM_related {R : σ → σ → Prop}
    (hstep : ∀ s s' a r, R s s' → step s a = some r → ∃ r', step s' a = some r' ∧ R r r') {r : σ}
    (h : R s s') (hr : as.foldlM step s = some r) :
    ∃ r', as.foldlM step s' = some r' ∧ R r r' := by
  induction as generalizing s s' with
  | nil =>
    obtain rfl := Option.some.inj hr
    exact ⟨s', rfl, h⟩
  | cons a rest ih =>
    rw [List.foldlM_cons] at hr ⊢
    obtain ⟨s₁, hs₁, hr⟩ := Option.bind_eq_some_iff.1 hr
    obtain ⟨s₁', hs₁', h₁⟩ := hstep s s' a s₁ h hs₁
    rw [hs₁']
    exact ih h₁ hr

/-- A run through states that are mapped goes along with the run through the states themselves. -/
theorem foldlM_hom (φ : σ → τ) {step' : τ → α → Option τ}
    (h : ∀ a ∈ as, ∀ s, step' (φ s) a = (step s a).map φ) (s : σ) :
    as.foldlM step' (φ s) = (as.foldlM step s).map φ := by
  induction as generalizing s with
  | nil => rfl
  | cons a rest ih =>
    rw [List.foldlM_cons, List.foldlM_cons, h a List.mem_cons_self]
    cases step s a with
    | none => rfl
    | some s => exact ih (fun b hb => h b (List.mem_cons_of_mem _ hb)) s

/-- A run over mapped inputs from a mapped state ends in the mapped result, if each step does. -/
theorem foldlM_map_hom (φ : σ → τ) (ψ : α → β) {step' : τ → β → Option τ}
    (h : ∀ s a, step' (φ s) (ψ a) = (step s a).map φ) (as : List α) (s : σ) :
    (as.map ψ).foldlM step' (φ s) = (as.foldlM step s).map φ := by
  rw [List.foldlM_map]
  exact foldlM_hom φ (fun a _ s => h s a) s

end Steps

section SideBySide

variable {α β γ δ σ τ : Type} {R : α → β → Prop} {S : γ → δ → Prop}
variable {a : Option α} {b : Option β}

/-- What is computed from related answers is related, if the computations keep it so. -/
theorem rel_bind {f : α → Option γ} {g : β → Option δ} (h : Option.Rel R a b)
    (hfg : ∀ x y, R x y → Option.Rel S (f x) (g y)) : Option.Rel S (a.bind f) (b.bind g) := by
  cases h with
  | none => exact .none
  | some hxy => exact hfg _ _ hxy

/-- Related answers are mapped to related ones. -/
theorem rel_map {f : α → γ} {g : β → δ} (h : Option.Rel R a b)
    (hfg : ∀ x y, R x y → S (f x) (g y)) : Option.Rel S (a.map f) (b.map g) := by
  cases h with
  | none => exact .none
  | some hxy => exact .some (hfg _ _ hxy)

/-- If the second of two related answers is there, so is the first. -/
theorem exists_of_rel_some {y : β} (h : Option.Rel R a (some y)) : ∃ x, a = some x ∧ R x y := by
  cases h with
  | some hxy => exact ⟨_, rfl, hxy⟩

/-- If the first of two related answers is there, so is the second. -/
theorem exists_of_some_rel {x : α} (h : Option.Rel R (some x) b) : ∃ y, b = some y ∧ R x y := by
  cases h with
  | some hxy => exact ⟨_, rfl, hxy⟩

/-- The last elements of related lists are related. -/
theorem rel_getLast? {as : List α} {bs : List β} (h : List.Forall₂ R as bs) :
    Option.Rel R as.getLast? bs.getLast? := by
  have hreverse := List.rel_reverse h
  rw [List.getLast?_eq_head?_reverse, List.getLast?_eq_head?_reverse]
  generalize as.reverse = as', bs.reverse = bs' at hreverse
  cases hreverse with
  | nil => exact .none
  | cons hab _ => exact .some hab

/-- The first elements of a kind in related lists are related. -/
theorem rel_find? {p : α → Bool} {q : β → Bool} (hpq : ∀ a b, R a b → q b = p a) {as : List α}
    {bs : List β} (h : List.Forall₂ R as bs) : Option.Rel R (as.find? p) (bs.find? q) := by
  induction h with
  | nil => exact .none
  | cons hab _ ih =>
    rw [List.find?_cons, List.find?_cons, hpq _ _ hab]
    split
    · exact .some hab
    · exact ih

/-- Lists of computations give related results if they go over related elements. -/
theorem rel_mapM {f : α → Option γ} {g : β → Option δ} {as : List α} {bs : List β}
    (h : List.Forall₂ R as bs) (hfg : ∀ a b, R a b → Option.Rel S (f a) (g b)) :
    Option.Rel (List.Forall₂ S) (as.mapM f) (bs.mapM g) := by
  induction h with
  | nil => exact .some .nil
  | cons hab _ ih =>
    rw [List.mapM_cons, List.mapM_cons]
    exact rel_bind (hfg _ _ hab) fun x y hxy => rel_bind ih fun xs ys hxys => .some (.cons hxy hxys)

/-- Runs over related inputs stay related if their steps keep them so. -/
theorem rel_foldlM {P : σ → τ → Prop} {step : σ → α → Option σ} {step' : τ → β → Option τ}
    {as : List α} {bs : List β} (h : List.Forall₂ R as bs) {s : σ} {t : τ} (hst : P s t)
    (hstep : ∀ s t a b, P s t → R a b → Option.Rel P (step s a) (step' t b)) :
    Option.Rel P (as.foldlM step s) (bs.foldlM step' t) := by
  induction h generalizing s t with
  | nil => exact .some hst
  | cons hab _ ih =>
    rw [List.foldlM_cons, List.foldlM_cons]
    exact rel_bind (hstep _ _ _ _ hst hab) fun _ _ hst' => ih hst'

end SideBySide

section Budget

variable {σ α : Type} {step : σ → α → Option σ} {as : List α} {s : σ}

/-- What the elements of a list cost together. -/
@[simp] def totalCost (cost : α → Nat) : List α → Nat
  | [] => 0
  | a :: rest => cost a + totalCost cost rest

/-- The costs of joined lists add up. -/
@[simp] theorem totalCost_append (cost : α → Nat) (as bs : List α) :
    totalCost cost (as ++ bs) = totalCost cost as + totalCost cost bs := by
  induction as with
  | nil => simp
  | cons a rest ih =>
    simp only [List.cons_append, totalCost, ih]
    omega

/-- A run whose steps all end within a budget, each adding its cost at most, ends within the budget. -/
theorem exists_foldlM_within {size : σ → Nat} {cost : α → Nat} {bound : Nat}
    (hstep : ∀ s a, size s + cost a ≤ bound → ∃ s', step s a = some s' ∧ size s' ≤ size s + cost a)
    (h : size s + totalCost cost as ≤ bound) :
    ∃ s', as.foldlM step s = some s' ∧ size s' ≤ size s + totalCost cost as := by
  induction as generalizing s with
  | nil => exact ⟨s, rfl, Nat.le_add_right _ _⟩
  | cons a rest ih =>
    rw [totalCost] at h ⊢
    obtain ⟨s₁, hs₁, hsize₁⟩ := hstep s a (by omega)
    obtain ⟨s', hs', hsize'⟩ := ih (s := s₁) (by omega)
    refine ⟨s', ?_, by omega⟩
    rw [List.foldlM_cons, hs₁]
    exact hs'

end Budget

end Overlay
