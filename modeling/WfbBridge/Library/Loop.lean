import Mathlib
import WfbBridge.Library.Checked

/-!
# Counted loops

A loop `for (i = a; i < a + n; i++) body` is a fold over `List.range' a n`.  The
rules below carry an invariant indexed by the loop counter through such a fold,
plain or with failure.
-/

namespace Loop

variable {σ α ε : Type*}

/-- The invariant rule for a loop that cannot fail. -/
theorem foldl_range'_inv {f : σ → ℕ → σ} {s : σ} {a n : ℕ} (P : ℕ → σ → Prop) (h₀ : P a s)
    (hstep : ∀ i t, a ≤ i → i < a + n → P i t → P (i + 1) (f t i)) :
    P (a + n) ((List.range' a n).foldl f s) := by
  induction n with
  | zero => simpa using h₀
  | succ n ih =>
      rw [List.range'_1_concat, List.foldl_append]
      have h := ih fun i t hi hlt ↦ hstep i t hi (by omega)
      exact hstep (a + n) _ (by omega) (by omega) h

/-- The invariant rule for a loop that starts at `0`. -/
theorem foldl_range_inv {f : σ → ℕ → σ} {s : σ} {n : ℕ} (P : ℕ → σ → Prop) (h₀ : P 0 s)
    (hstep : ∀ i t, i < n → P i t → P (i + 1) (f t i)) : P n ((List.range n).foldl f s) := by
  have h := foldl_range'_inv (a := 0) (n := n) P h₀ fun i t _ hi ↦ hstep i t (by omega)
  simpa [List.range_eq_range'] using h

/-- The invariant rule for a loop whose body may fail: if the body succeeds
under the invariant, so does the loop. -/
theorem foldlM_range'_inv {f : σ → ℕ → Except ε σ} {s : σ} {a n : ℕ} (P : ℕ → σ → Prop)
    (h₀ : P a s)
    (hstep : ∀ i t, a ≤ i → i < a + n → P i t → ∃ t', f t i = .ok t' ∧ P (i + 1) t') :
    ∃ t, (List.range' a n).foldlM f s = .ok t ∧ P (a + n) t := by
  induction n with
  | zero => exact ⟨s, rfl, by simpa using h₀⟩
  | succ n ih =>
      obtain ⟨t, ht, hP⟩ := ih fun i t hi hlt ↦ hstep i t hi (by omega)
      obtain ⟨t', ht', hP'⟩ := hstep (a + n) t (by omega) (by omega) hP
      refine ⟨t', ?_, hP'⟩
      rw [List.range'_1_concat, List.foldlM_append, ht]
      simp only [List.foldlM_cons, List.foldlM_nil, bind_pure]
      exact ht'

/-- The rule for a failing loop that starts at `0`. -/
theorem foldlM_range_inv {f : σ → ℕ → Except ε σ} {s : σ} {n : ℕ} (P : ℕ → σ → Prop)
    (h₀ : P 0 s) (hstep : ∀ i t, i < n → P i t → ∃ t', f t i = .ok t' ∧ P (i + 1) t') :
    ∃ t, (List.range n).foldlM f s = .ok t ∧ P n t := by
  have h := foldlM_range'_inv (a := 0) (n := n) P h₀ fun i t _ hi ↦ hstep i t (by omega)
  simpa [List.range_eq_range'] using h

/-- `for (i = 0; i < n; i++) xs[i] = f(i, xs[i])`, counting from `i`. -/
def forEach (f : ℕ → α → Except ε α) : ℕ → List α → Except ε (List α)
  | _, [] => .ok []
  | i, x :: xs => do
      let y ← f i x
      let ys ← forEach f (i + 1) xs
      .ok (y :: ys)

theorem forEach_from_spec {f : ℕ → α → Except ε α} {Q : ℕ → α → α → Prop} (xs : List α) (i : ℕ)
    (h : ∀ (j : ℕ) (x : α), xs[j]? = some x → ∃ y, f (i + j) x = .ok y ∧ Q (i + j) x y) :
    ∃ ys, forEach f i xs = .ok ys ∧ ys.length = xs.length ∧
      ∀ (j : ℕ) (x y : α), xs[j]? = some x → ys[j]? = some y → Q (i + j) x y := by
  induction xs generalizing i with
  | nil => exact ⟨[], rfl, rfl, by simp⟩
  | cons x xs ih =>
      obtain ⟨y, hy, hQ⟩ := h 0 x rfl
      obtain ⟨ys, hys, hlen, hall⟩ := ih (i + 1) fun j x hx ↦ by
        have := h (j + 1) x (by simpa using hx)
        rwa [← Nat.add_assoc, Nat.add_right_comm] at this
      refine ⟨y :: ys, ?_, by simp [hlen], ?_⟩
      · rw [forEach, ← Nat.add_zero i, hy, Checked.ok_bind, Nat.add_zero, hys, Checked.ok_bind]
      · rintro (_ | j) x' y' hx hy'
        · obtain rfl : x = x' := by simpa using hx
          obtain rfl : y = y' := by simpa using hy'
          exact hQ
        · have := hall j x' y' (by simpa using hx) (by simpa using hy')
          rwa [Nat.add_right_comm] at this

/-- If every turn of an entrywise loop succeeds with a result related to the entry,
the loop returns related entries. -/
theorem forEach_spec (f : ℕ → α → Except ε α) (Q : ℕ → α → α → Prop) (xs : List α)
    (h : ∀ (j : ℕ) (x : α), xs[j]? = some x → ∃ y, f j x = .ok y ∧ Q j x y) :
    ∃ ys, forEach f 0 xs = .ok ys ∧ ys.length = xs.length ∧
      ∀ (j : ℕ) (x y : α), xs[j]? = some x → ys[j]? = some y → Q j x y := by
  have := forEach_from_spec (f := f) (Q := Q) xs 0
  simp only [Nat.zero_add] at this
  exact this h

end Loop
