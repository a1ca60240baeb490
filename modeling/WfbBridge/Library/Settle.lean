import Mathlib

/-!
# Runs that settle

A run is a sequence of states.  If every step that changes the state lowers a rank, the state is
changed finitely often, whatever the order of the steps; where the run settles, no step of a kind
that is taken again and again can change anything any more.
-/

namespace Settle

variable {σ α κ : Type*} [Preorder α] [WellFoundedLT α] {path : ℕ → σ} {start : ℕ}

/-- A run whose rank falls with every change settles. -/
theorem eventually_const (rank : σ → α)
    (hstep : ∀ n ≥ start, path (n + 1) = path n ∨ rank (path (n + 1)) < rank (path n)) :
    ∃ stop ≥ start, ∀ n ≥ stop, path n = path stop := by
  obtain ⟨_, ⟨stop, hstop, rfl⟩, hmin⟩ :=
    wellFounded_lt.has_min {a : α | ∃ n ≥ start, rank (path n) = a}
      ⟨rank (path start), start, le_rfl, rfl⟩
  refine ⟨stop, hstop, fun n hn ↦ ?_⟩
  induction n, hn using Nat.le_induction with
  | base => rfl
  | succ n hn ih =>
      rcases hstep n (hstop.trans hn) with heq | hlt
      · exact heq.trans ih
      · rw [ih] at hlt
        exact absurd hlt (hmin _ ⟨n + 1, (hstop.trans hn).trans (Nat.le_succ n), rfl⟩)

/-- Where a fair run settles the goal is reached, if in every other state some kind of step is bound
to change something. -/
theorem goal_of_const {goal : σ → Prop} (kind : ℕ → κ) {help : σ → κ} {stop : ℕ}
    (hconst : ∀ n ≥ stop, path n = path stop)
    (hhelp : ∀ n ≥ stop, path (n + 1) = path n → kind n = help (path n) → goal (path n))
    (hfair : ∃ n ≥ stop, kind n = help (path stop)) : goal (path stop) := by
  obtain ⟨n, hn, hkind⟩ := hfair
  rw [← hconst n hn] at hkind ⊢
  exact hhelp n hn ((hconst (n + 1) (hn.trans (Nat.le_succ n))).trans (hconst n hn).symm) hkind

end Settle
