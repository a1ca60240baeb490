import Mathlib

/-!
# Lossy copies of a list

`Drops D l l'` says that `l'` is `l` without some entries that meet `D`.  When nothing meets
`D` the two lists are equal, and when everything does this is `List.Sublist`.
-/

/-- `l'` is left of `l` when entries that meet `D` are dropped. -/
inductive Drops {α : Type*} (D : α → Prop) : List α → List α → Prop
  | nil : Drops D [] []
  | keep (a : α) {l l' : List α} : Drops D l l' → Drops D (a :: l) (a :: l')
  | drop {a : α} (ha : D a) {l l' : List α} : Drops D l l' → Drops D (a :: l) l'

namespace Drops

variable {α β : Type*} {D : α → Prop} {l l' m m' : List α} {a : α}

theorem refl (D : α → Prop) (l : List α) : Drops D l l := by
  induction l with
  | nil => exact .nil
  | cons a l ih => exact .keep a ih

theorem sublist (h : Drops D l l') : l'.Sublist l := by
  induction h with
  | nil => exact .slnil
  | keep a _ ih => exact ih.cons_cons a
  | drop _ _ ih => exact ih.cons _

/-- Without anything that may be dropped. -/
theorem eq_of_forall_not (h : Drops D l l') (hD : ∀ a ∈ l, ¬D a) : l' = l := by
  induction h with
  | nil => rfl
  | keep a _ ih => rw [ih fun b hb ↦ hD b (List.mem_cons_of_mem _ hb)]
  | drop ha _ _ => exact absurd ha (hD _ List.mem_cons_self)

theorem append (h : Drops D l l') (h' : Drops D m m') : Drops D (l ++ m) (l' ++ m') := by
  induction h with
  | nil => exact h'
  | keep a _ ih => exact .keep a ih
  | drop ha _ ih => exact .drop ha ih

/-- One more entry that is kept. -/
theorem concat (h : Drops D l l') (a : α) : Drops D (l ++ [a]) (l' ++ [a]) := h.append (.refl D [a])

/-- One more entry that is dropped. -/
theorem concat_drop (h : Drops D l l') (ha : D a) : Drops D (l ++ [a]) l' := by
  have h' := h.append (.drop ha .nil)
  rwa [List.append_nil] at h'

/-- An entry is dropped later on. -/
theorem erase (h : Drops D l (m ++ a :: m')) (ha : D a) : Drops D l (m ++ m') := by
  generalize hl' : m ++ a :: m' = l' at h
  induction h generalizing m with
  | nil => exact absurd hl' (by simp)
  | @keep b l l' h ih =>
      cases m with
      | nil =>
          obtain ⟨rfl, rfl⟩ := List.cons.inj hl'
          exact .drop ha h
      | cons c m =>
          obtain ⟨rfl, hrest⟩ := List.cons.inj hl'
          exact .keep c (ih hrest)
  | drop hb _ ih => exact .drop hb (ih hl')

/-- What is left of a list of images are images of what is left. -/
theorem exists_map {D : β → Prop} {f : α → β} {l : List α} {l' : List β}
    (h : Drops D (l.map f) l') :
    ∃ k, Drops (fun a ↦ D (f a)) l k ∧ l' = k.map f := by
  generalize hl : l.map f = fl at h
  induction h generalizing l with
  | nil =>
      rw [List.map_eq_nil_iff.mp hl]
      exact ⟨[], .nil, rfl⟩
  | @keep b _ l' _ ih =>
      obtain ⟨a, l, rfl, rfl, hrest⟩ := List.map_eq_cons_iff.mp hl
      obtain ⟨k, hk, rfl⟩ := ih hrest
      exact ⟨a :: k, .keep a hk, rfl⟩
  | @drop b hb _ l' _ ih =>
      obtain ⟨a, l, rfl, rfl, hrest⟩ := List.map_eq_cons_iff.mp hl
      obtain ⟨k, hk, rfl⟩ := ih hrest
      exact ⟨k, Drops.drop (D := fun a ↦ D (f a)) hb hk, rfl⟩

/-- What is left of a concatenation is a concatenation of what is left. -/
theorem exists_append {l₁ l₂ : List α} (h : Drops D (l₁ ++ l₂) l') :
    ∃ k₁ k₂, Drops D l₁ k₁ ∧ Drops D l₂ k₂ ∧ l' = k₁ ++ k₂ := by
  generalize hl : l₁ ++ l₂ = l at h
  induction h generalizing l₁ with
  | nil =>
      obtain ⟨rfl, rfl⟩ := List.append_eq_nil_iff.mp hl
      exact ⟨[], [], .nil, .nil, rfl⟩
  | @keep a l l' h ih =>
      cases l₁ with
      | nil =>
          subst hl
          exact ⟨[], a :: l', .nil, .keep a h, rfl⟩
      | cons b l₁ =>
          obtain ⟨rfl, hrest⟩ := List.cons.inj hl
          obtain ⟨k₁, k₂, hk₁, hk₂, rfl⟩ := ih hrest
          exact ⟨b :: k₁, k₂, .keep b hk₁, hk₂, rfl⟩
  | @drop a ha l l' h ih =>
      cases l₁ with
      | nil =>
          subst hl
          exact ⟨[], l', .nil, .drop ha h, rfl⟩
      | cons b l₁ =>
          obtain ⟨rfl, hrest⟩ := List.cons.inj hl
          obtain ⟨k₁, k₂, hk₁, hk₂, rfl⟩ := ih hrest
          exact ⟨k₁, k₂, .drop ha hk₁, hk₂, rfl⟩

theorem exists_flatten {ls : List (List α)} (h : Drops D ls.flatten l') :
    ∃ ks, List.Forall₂ (Drops D) ls ks ∧ l' = ks.flatten := by
  induction ls generalizing l' with
  | nil =>
      cases h
      exact ⟨[], .nil, rfl⟩
  | cons l₁ ls ih =>
      obtain ⟨k₁, k₂, hk₁, hk₂, rfl⟩ := exists_append h
      obtain ⟨ks, hks, rfl⟩ := ih hk₂
      exact ⟨k₁ :: ks, .cons hk₁ hks, rfl⟩

/-- What may not be dropped is kept. -/
theorem mem (h : Drops D l l') (ha : a ∈ l) (hD : ¬D a) : a ∈ l' := by
  induction h with
  | nil => exact ha
  | keep b _ ih =>
      rcases List.mem_cons.mp ha with rfl | ha
      · exact List.mem_cons_self
      · exact List.mem_cons_of_mem _ (ih ha)
  | drop hb _ ih =>
      rcases List.mem_cons.mp ha with rfl | ha
      · exact absurd hb hD
      · exact ih ha

end Drops
