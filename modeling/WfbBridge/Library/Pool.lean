import Mathlib

/-!
# Threads and the one that is held

A program that starts threads one after the other and holds the last one, to join it before it
starts the next.  The threads stay in the list when they have come to their end.
-/

/-- The threads that were started, and the one that is held. -/
structure Pool (τ : Type*) where
  threads : List τ := []
  handle : Option ℕ := none
deriving DecidableEq

namespace Pool

variable {τ : Type*} {p : Pool τ} {t t₀ : τ} {i : ℕ}

/-- The thread that is held. -/
def held (p : Pool τ) : Option τ := p.handle.bind (p.threads[·]?)

/-- Start a thread, and hold it. -/
def start (p : Pool τ) (t : τ) : Pool τ := ⟨p.threads ++ [t], some p.threads.length⟩

/-- Let go of the thread. -/
def release (p : Pool τ) : Pool τ := { p with handle := none }

/-- Thread `i` has taken a step. -/
def update (p : Pool τ) (i : ℕ) (t : τ) : Pool τ := { p with threads := p.threads.set i t }

@[simp] theorem held_release (p : Pool τ) : p.release.held = none := rfl

@[simp] theorem handle_update (p : Pool τ) (i : ℕ) (t : τ) : (p.update i t).handle = p.handle := rfl

theorem held_start (p : Pool τ) (t : τ) : (p.start t).held = some t := by
  simp [held, start]

theorem held_of_handle (h : p.handle = some i) : p.held = p.threads[i]? := by
  rw [held, h, Option.bind_some]

theorem held_update_self (h : p.handle = some i) (ht : p.threads[i]? = some t₀) :
    (p.update i t).held = some t := by
  rw [held_of_handle (show (p.update i t).handle = some i from h)]
  exact List.getElem?_set_self (List.getElem?_eq_some_iff.mp ht).1

theorem held_update_ne (h : p.handle ≠ some i) : (p.update i t).held = p.held := by
  cases hhandle : p.handle with
  | none => rw [held, held, handle_update, hhandle]; rfl
  | some j =>
      have hne : i ≠ j := fun heq ↦ h (heq ▸ hhandle)
      rw [held_of_handle hhandle, held_of_handle (show (p.update i t).handle = some j from hhandle)]
      exact List.getElem?_set_ne hne

/-- Every thread but the one that is held has come to its end. -/
def Tidy (done : τ → Prop) (p : Pool τ) : Prop :=
  ∀ i t, p.threads[i]? = some t → p.handle ≠ some i → done t

variable {done : τ → Prop}

theorem Tidy.start (h : p.Tidy done) (hhandle : p.handle = none) : (p.start t).Tidy done := by
  intro i t' ht' hne
  refine h i t' ?_ (by simp [hhandle])
  change (p.threads ++ [t])[i]? = some t' at ht'
  rcases Nat.lt_trichotomy i p.threads.length with hlt | rfl | hgt
  · rwa [List.getElem?_append_left hlt] at ht'
  · exact absurd rfl hne
  · rw [List.getElem?_eq_none (by simpa using hgt)] at ht'
    cases ht'

theorem Tidy.release (h : p.Tidy done) (hheld : ∀ t ∈ p.held, done t) : p.release.Tidy done := by
  intro i t ht hne
  by_cases hi : p.handle = some i
  · refine hheld t ?_
    rw [held_of_handle hi]
    exact ht
  · exact h i t ht hi

/-- A thread that has come to its end stays there. -/
theorem Tidy.update (h : p.Tidy done) (ht : p.threads[i]? = some t₀) (hdone : done t₀ → done t) :
    (p.update i t).Tidy done := by
  intro j t' ht' hne
  by_cases hji : i = j
  · subst hji
    rw [Pool.update, List.getElem?_set_self (List.getElem?_eq_some_iff.mp ht).1] at ht'
    obtain rfl := Option.some.inj ht'
    exact hdone (h i t₀ ht hne)
  · rw [Pool.update, List.getElem?_set_ne hji] at ht'
    exact h j t' ht' hne

/-- A thread that is still running is the one that is held. -/
theorem Tidy.handle_eq (h : p.Tidy done) (ht : p.threads[i]? = some t) (hrun : ¬done t) :
    p.handle = some i := by
  by_contra hne
  exact hrun (h i t ht hne)

end Pool
