import Mathlib

/-!
# Checked access

Computations in `Except ε` as programs that stop at the first access outside a
buffer.  A buffer is a list; `readAt` is the checked read.
-/

namespace Checked

universe u v

variable {α β : Type u} {ε : Type v}

@[simp] theorem ok_bind (a : α) (f : α → Except ε β) : ((Except.ok a : Except ε α) >>= f) = f a :=
  rfl

@[simp] theorem error_bind (e : ε) (f : α → Except ε β) :
    ((Except.error e : Except ε α) >>= f) = Except.error e := rfl

/-- A sequence of two computations succeeds when both do. -/
theorem bind_eq_ok {x : Except ε α} {f : α → Except ε β} {b : β} :
    x >>= f = .ok b ↔ ∃ a, x = .ok a ∧ f a = .ok b := by
  cases x with
  | error e => simp
  | ok a => simp

/-- A test that needs the result of a computation passes only if there is one. -/
theorem exists_ok_of_any {x : Except ε α} {p : α → Bool} (h : x.toOption.any p = true) :
    ∃ a, x = .ok a ∧ p a = true := by
  cases x with
  | error e => cases h
  | ok a => exact ⟨a, rfl, h⟩

/-- A loop none of whose turns fails. -/
theorem mapM_eq_ok {γ : Type*} {f : γ → Except ε α} {g : γ → α} {l : List γ}
    (h : ∀ x ∈ l, f x = .ok (g x)) : l.mapM f = .ok (l.map g) := by
  induction l with
  | nil => rfl
  | cons x l ih =>
      rw [List.mapM_cons, h x List.mem_cons_self, ok_bind,
        ih fun y hy ↦ h y (List.mem_cons_of_mem _ hy), ok_bind]
      rfl

/-- What every turn of a loop preserves, a loop that succeeds has preserved. -/
theorem foldlM_inv {γ : Type*} {f : α → γ → Except ε α} {P : α → Prop}
    (hf : ∀ a c a', P a → f a c = .ok a' → P a') :
    ∀ (l : List γ) {a a' : α}, P a → l.foldlM f a = .ok a' → P a'
  | [], _, _, ha, h => Except.ok.inj h ▸ ha
  | c :: l, a, a', ha, h => by
      rw [List.foldlM_cons] at h
      obtain ⟨a₁, h₁, h⟩ := bind_eq_ok.mp h
      exact foldlM_inv hf l (hf a c a₁ ha h₁) h

/-- Entry `i` of a buffer, or the failure `e`. -/
def readAt (e : ε) (xs : List α) (i : ℕ) : Except ε α :=
  match xs[i]? with
  | some x => .ok x
  | none => .error e

theorem readAt_of_lt (e : ε) {xs : List α} {i : ℕ} (h : i < xs.length) :
    readAt e xs i = .ok xs[i] := by
  rw [readAt, List.getElem?_eq_getElem h]

theorem readAt_eq_ok {e : ε} {xs : List α} {i : ℕ} {x : α} :
    readAt e xs i = .ok x ↔ xs[i]? = some x := by
  rw [readAt]
  cases xs[i]? <;> simp

theorem readAt_append_left (e : ε) {xs : List α} (ys : List α) {i : ℕ} (h : i < xs.length) :
    readAt e (xs ++ ys) i = readAt e xs i := by
  rw [readAt, readAt, List.getElem?_append_left h]

theorem readAt_append_right (e : ε) (xs ys : List α) (i : ℕ) :
    readAt e (xs ++ ys) (xs.length + i) = readAt e ys i := by
  rw [readAt, readAt, List.getElem?_append_right (Nat.le_add_right _ _), Nat.add_sub_cancel_left]

end Checked
