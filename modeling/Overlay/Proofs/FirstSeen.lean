import Mathlib.Data.List.Induction
import Overlay.FirstSeen

/-!
# Collecting in first-seen order

Amending a list with one element after the other leaves one element for each key, in the order in
which the keys are first seen, and each element is built from what came under its key. The order
is that of `List.eraseDups`, whose laws under appending, filtering and mapping come first.
-/

namespace Overlay

section EraseDups

variable {α β : Type} [DecidableEq α] [DecidableEq β]

/-- A last element is kept exactly when it is new. -/
theorem eraseDups_concat (l : List α) (a : α) :
    (l ++ [a]).eraseDups = if a ∈ l then l.eraseDups else l.eraseDups ++ [a] := by
  rw [List.eraseDups_append]
  by_cases h : a ∈ l <;> simp [List.cons_removeAll, List.eraseDups_cons, h]

/-- No element is left twice. -/
@[simp] theorem nodup_eraseDups (l : List α) : l.eraseDups.Nodup := by
  induction l using List.reverseRecOn with
  | nil => simp
  | append_singleton l a ih =>
    rw [eraseDups_concat]
    by_cases h : a ∈ l
    · simpa [h] using ih
    · rw [if_neg h]
      refine List.nodup_append.2 ⟨ih, by simp, ?_⟩
      intro b hb c hc hbc
      rw [List.mem_singleton] at hc
      exact h (List.mem_eraseDups.1 (hc ▸ hbc ▸ hb))

/-- A list without repetitions is left as it is. -/
theorem eraseDups_of_nodup {l : List α} (h : l.Nodup) : l.eraseDups = l := by
  induction l using List.reverseRecOn with
  | nil => simp
  | append_singleton l a ih =>
    obtain ⟨hl, -, hdisjoint⟩ := List.nodup_append.1 h
    have hnew : a ∉ l := fun ha => hdisjoint a ha a (List.mem_singleton_self a) rfl
    rw [eraseDups_concat, if_neg hnew, ih hl]

/-- Elements that are picked out are first seen in the same order. -/
theorem filter_eraseDups (p : α → Bool) (l : List α) :
    l.eraseDups.filter p = (l.filter p).eraseDups := by
  induction l using List.reverseRecOn with
  | nil => simp
  | append_singleton l a ih =>
    rw [eraseDups_concat, List.filter_append]
    by_cases hp : p a = true
    · have hone : [a].filter p = [a] := by simp [hp]
      have hmem : a ∈ l.filter p ↔ a ∈ l := by simp [hp]
      rw [hone, eraseDups_concat]
      by_cases h : a ∈ l <;> simp [h, hmem, ih, hp]
    · by_cases h : a ∈ l <;> simp [h, ih, hp]

/-- Repetitions can be left out of the end of a list beforehand. -/
@[simp] theorem eraseDups_append_eraseDups (k l : List α) :
    (k ++ l.eraseDups).eraseDups = (k ++ l).eraseDups := by
  induction l using List.reverseRecOn with
  | nil => simp
  | append_singleton l a ih =>
    rw [← List.append_assoc, eraseDups_concat (k ++ l) a, eraseDups_concat l a]
    by_cases h : a ∈ l
    · simp [h, ih]
    · rw [if_neg h, ← List.append_assoc, eraseDups_concat]
      simp [ih, h]

/-- Repetitions can be left out of the start of a list beforehand. -/
@[simp] theorem eraseDups_eraseDups_append (k l : List α) :
    (k.eraseDups ++ l).eraseDups = (k ++ l).eraseDups := by
  have hremove : l.removeAll k.eraseDups = l.removeAll k := by simp [List.removeAll]
  rw [List.eraseDups_append, List.eraseDups_append, eraseDups_of_nodup (nodup_eraseDups k), hremove]

/-- Repetitions are left out once and for all. -/
@[simp] theorem eraseDups_eraseDups (l : List α) : l.eraseDups.eraseDups = l.eraseDups :=
  eraseDups_of_nodup (nodup_eraseDups l)

/-- Repetitions can be left out before the elements are mapped. -/
@[simp] theorem eraseDups_map_eraseDups (f : α → β) (l : List α) :
    (l.eraseDups.map f).eraseDups = (l.map f).eraseDups := by
  induction l using List.reverseRecOn with
  | nil => simp
  | append_singleton l a ih =>
    rw [eraseDups_concat, List.map_append, List.map_singleton, eraseDups_concat (l.map f)]
    by_cases h : a ∈ l
    · rw [if_pos h, if_pos (List.mem_map_of_mem h), ih]
    · rw [if_neg h, List.map_append, List.map_singleton, eraseDups_concat, ih]
      simp

/-- A map that keeps the elements apart keeps the order in which they are first seen. -/
theorem eraseDups_map_of_injOn {f : α → β} {l : List α}
    (hf : ∀ a ∈ l, ∀ b ∈ l, f a = f b → a = b) : (l.map f).eraseDups = l.eraseDups.map f := by
  induction l using List.reverseRecOn with
  | nil => simp
  | append_singleton l a ih =>
    have hl : ∀ b ∈ l, b ∈ l ++ [a] := fun b hb => List.mem_append_left _ hb
    have hrest := ih fun b hb c hc => hf b (hl b hb) c (hl c hc)
    have hmem : f a ∈ l.map f ↔ a ∈ l := by
      refine ⟨fun h => ?_, List.mem_map_of_mem⟩
      obtain ⟨b, hb, hba⟩ := List.mem_map.1 h
      rwa [← hf b (hl b hb) a (by simp) hba]
    rw [List.map_append, List.map_singleton, eraseDups_concat, eraseDups_concat, hrest]
    by_cases h : a ∈ l <;> simp [h, hmem]

/-- Distinct elements that are each repeated in place are first seen in their order. -/
theorem eraseDups_flatMap_of_nodup {l : List α} (hnodup : l.Nodup) {f : α → List α}
    (hf : ∀ a ∈ l, f a ≠ [] ∧ ∀ b ∈ f a, b = a) : (l.flatMap f).eraseDups = l := by
  induction l using List.reverseRecOn with
  | nil => rfl
  | append_singleton l a ih =>
    obtain ⟨hl, -, hdisjoint⟩ := List.nodup_append.1 hnodup
    have hbefore : ∀ b ∈ l, b ∈ l ++ [a] := fun b hb => List.mem_append_left _ hb
    have hrest := ih hl fun b hb => hf b (hbefore b hb)
    have hnew : a ∉ l.flatMap f := by
      intro ha
      obtain ⟨b, hb, hab⟩ := List.mem_flatMap.1 ha
      exact hdisjoint b hb a (List.mem_singleton_self a) ((hf b (hbefore b hb)).2 a hab).symm
    have hrepeated : (f a).eraseDups = [a] := by
      obtain ⟨hne, hall⟩ := hf a (by simp)
      obtain ⟨b, rest, hfa⟩ := List.exists_cons_of_ne_nil hne
      rw [hfa] at hall ⊢
      have hb : b = a := hall b List.mem_cons_self
      have hnone : rest.filter (fun c => !c == b) = [] :=
        List.filter_eq_nil_iff.2 fun c hc => by simp [hall c (List.mem_cons_of_mem _ hc), hb]
      rw [List.eraseDups_cons, hnone, hb]
      rfl
    rw [List.flatMap_append, List.flatMap_singleton, ← eraseDups_append_eraseDups, hrepeated,
      eraseDups_concat, if_neg hnew, hrest]

end EraseDups

section Amend

variable {α β κ : Type} [DecidableEq κ]

/-- A key that is not there gets its element at the end. -/
theorem amend_of_forall_not {meant : α → Bool} {change : α → α} {fresh : α} {as : List α}
    (h : ∀ a ∈ as, meant a = false) : amend meant change fresh as = as ++ [fresh] := by
  induction as with
  | nil => rfl
  | cons a rest ih =>
    have ha := h a List.mem_cons_self
    have hrest := ih fun b hb => h b (List.mem_cons_of_mem _ hb)
    simp [amend, ha, hrest]

/-- What amending does not change in an element is changed in the list by a new element only. -/
theorem map_amend {γ : Type} {g : α → γ} {meant : α → Bool} {change : α → α} {fresh : α}
    (h : ∀ a, g (change a) = g a) (as : List α) :
    (amend meant change fresh as).map g = as.map g ∨
      (amend meant change fresh as).map g = as.map g ++ [g fresh] := by
  induction as with
  | nil => exact Or.inr rfl
  | cons a rest ih =>
    rw [amend]
    split
    · exact Or.inl (by rw [List.map_cons, h, List.map_cons])
    · rcases ih with ih | ih
      · exact Or.inl (by rw [List.map_cons, ih, List.map_cons])
      · exact Or.inr (by rw [List.map_cons, ih, List.map_cons, List.cons_append])

/-- Among distinct keys only the element of the amended key is changed. -/
theorem amend_map_of_mem {key : α → κ} {build : κ → α} (hkey : ∀ k, key (build k) = k)
    {change : α → α} {fresh : α} {keys : List κ} (hkeys : keys.Nodup) {k : κ} (hk : k ∈ keys) :
    amend (fun a => key a == k) change fresh (keys.map build) =
      keys.map fun l => if l = k then change (build l) else build l := by
  induction keys with
  | nil => simp at hk
  | cons l rest ih =>
    obtain ⟨hl, hrest⟩ := List.nodup_cons.1 hkeys
    rw [List.map_cons, List.map_cons, amend]
    by_cases h : l = k
    · have hother : ∀ m ∈ rest, build m = if m = k then change (build m) else build m := by
        intro m hm
        have hne : m ≠ k := fun heq => hl (by rwa [h, ← heq])
        rw [if_neg hne]
      rw [if_pos (by simpa [hkey] using h), if_pos h, List.map_congr_left hother]
    · have hmem : k ∈ rest := (List.mem_cons.1 hk).resolve_left (Ne.symm h)
      rw [if_neg (by simpa [hkey] using h), if_neg h, ih hrest hmem]

/-- Amending a list with one element after the other builds each key's element from all that came
under the key. -/
theorem foldl_amend_eq_map (key : α → κ) (keyOf : β → κ) (fresh : β → α) (change : β → α → α)
    (build : κ → List β → α) (hkey : ∀ k bs, key (build k bs) = k)
    (hfresh : ∀ b, fresh b = build (keyOf b) [b])
    (hchange : ∀ b k bs, bs ≠ [] → change b (build k bs) = build k (bs ++ [b])) (bs : List β) :
    bs.foldl (fun as b => amend (fun a => key a == keyOf b) (change b) (fresh b) as) [] =
      (bs.map keyOf).eraseDups.map fun k => build k (bs.filter fun b => keyOf b == k) := by
  induction bs using List.reverseRecOn with
  | nil => simp
  | append_singleton bs b ih =>
    rw [List.foldl_append, ih, List.foldl_cons, List.foldl_nil, List.map_append, List.map_singleton,
      eraseDups_concat]
    have hother (k : κ) (hk : k ≠ keyOf b) :
        (bs ++ [b]).filter (fun c => keyOf c == k) = bs.filter fun c => keyOf c == k := by
      simp [Ne.symm hk]
    by_cases hb : keyOf b ∈ bs.map keyOf
    · rw [if_pos hb, amend_map_of_mem (fun k => hkey k _) (nodup_eraseDups _)
        (List.mem_eraseDups.2 hb)]
      apply List.map_congr_left
      intro k _
      by_cases hk : k = keyOf b
      · have hsome : bs.filter (fun c => keyOf c == k) ≠ [] := by
          obtain ⟨c, hc, hcb⟩ := List.mem_map.1 hb
          exact List.ne_nil_of_mem (List.mem_filter.2 ⟨hc, by simp [hk, hcb]⟩)
        rw [if_pos hk, hchange _ _ _ hsome]
        simp [hk]
      · rw [if_neg hk, hother k hk]
    · have hnew : ∀ a ∈ (bs.map keyOf).eraseDups.map
          fun k => build k (bs.filter fun c => keyOf c == k), (key a == keyOf b) = false := by
        intro a ha
        obtain ⟨k, hk, rfl⟩ := List.mem_map.1 ha
        rw [hkey, beq_eq_false_iff_ne]
        exact fun heq => hb (heq ▸ List.mem_eraseDups.1 hk)
      have hnone : bs.filter (fun c => keyOf c == keyOf b) = [] := by
        rw [List.filter_eq_nil_iff]
        intro c hc heq
        exact hb (List.mem_map.2 ⟨c, hc, by simpa using heq⟩)
      rw [if_neg hb, amend_of_forall_not hnew, List.map_append, List.map_singleton, hfresh,
        List.filter_append, hnone]
      congr 1
      · apply List.map_congr_left
        intro k hk
        rw [hother k fun heq => hb (heq ▸ List.mem_eraseDups.1 hk)]
      · simp

end Amend

end Overlay
