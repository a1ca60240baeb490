import Mathlib

/-!
# Lists related entry by entry
-/

namespace List.Forall₂

variable {α β : Type*} {R S : α → β → Prop}

/-- What related lists give, entry by entry, with the entry of the second list at hand. -/
theorem imp_mem {l : List α} {l' : List β} (h : Forall₂ R l l')
    (hRS : ∀ a, ∀ b ∈ l', R a b → S a b) : Forall₂ S l l' := by
  induction h with
  | nil => exact .nil
  | cons hab _ ih =>
      exact .cons (hRS _ _ mem_cons_self hab) (ih fun a b hb ↦ hRS a b (mem_cons_of_mem _ hb))

/-- What they give of every entry of the first list. -/
theorem forall_mem {p : α → Prop} {l : List α} {l' : List β} (h : Forall₂ R l l')
    (hp : ∀ a, ∀ b ∈ l', R a b → p a) : ∀ a ∈ l, p a :=
  ((forall₂_and_left l l').mp (h.imp_mem fun a b hb hab ↦ ⟨hp a b hb hab, hab⟩)).1

/-- A list related to a concatenation is a concatenation of related lists. -/
theorem exists_flatten {l : List α} {ls : List (List β)} (h : Forall₂ R l ls.flatten) :
    ∃ ls' : List (List α), l = ls'.flatten ∧ Forall₂ (Forall₂ R) ls' ls := by
  induction ls generalizing l with
  | nil => exact ⟨[], by simpa using h, .nil⟩
  | cons l₁ ls ih =>
      rw [flatten_cons] at h
      obtain ⟨ls', hls, hall⟩ := ih (forall₂_drop_append l l₁ _ h)
      refine ⟨l.take l₁.length :: ls', ?_, .cons (forall₂_take_append l l₁ _ h) hall⟩
      rw [flatten_cons, ← hls, take_append_drop]

/-- Some entries of the first list are related to some entries of the second one. -/
theorem exists_sublist {k l : List α} {l' : List β} (h : Forall₂ R l l') (hk : k.Sublist l) :
    ∃ k' : List β, k'.Sublist l' ∧ Forall₂ R k k' := by
  induction hk generalizing l' with
  | slnil => exact ⟨[], nil_sublist _, .nil⟩
  | cons a _ ih =>
      obtain ⟨b, l', -, hl, rfl⟩ := forall₂_cons_left_iff.mp h
      obtain ⟨k', hk', hR⟩ := ih hl
      exact ⟨k', hk'.cons b, hR⟩
  | cons_cons a _ ih =>
      obtain ⟨b, l', hab, hl, rfl⟩ := forall₂_cons_left_iff.mp h
      obtain ⟨k', hk', hR⟩ := ih hl
      exact ⟨b :: k', hk'.cons_cons b, .cons hab hR⟩

end List.Forall₂
