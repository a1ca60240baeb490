import Mathlib

/-!
# Inverting a matrix in place by exchanges

Read a square matrix as the relation `y = A x`.  A pivot on the diagonal entry
`c` solves the `c`-th equation for `x c` and puts the result into the others:
`x c` and `y c` change sides.  After exchanging every index the matrix expresses
`x` by `y`, so it is the inverse.

In characteristic two the exchanged matrix is what Gauss-Jordan elimination
leaves when the column that would become a unit column is reused, with no change
of signs.  `Solved A P M` says that `M` is `A` with the indices in `P` exchanged;
it is kept by an exchange (`Solved.exchange`) and by swapping two rows that are
both still unsolved (`Solved.swap`), and as long as `A` is invertible and some
index is unsolved there is a pivot (`Solved.exists_pivot`).
-/

namespace Exchange

variable {F ι : Type*} [DecidableEq ι]

/-- Replace by `y` the entries of `x` at the exchanged indices. -/
def mix (P : Finset ι) (x y : ι → F) : ι → F := fun i ↦ if i ∈ P then y i else x i

@[simp] theorem mix_empty (x y : ι → F) : mix ∅ x y = x := by
  funext i
  simp [mix]

@[simp] theorem mix_univ [Fintype ι] (x y : ι → F) : mix Finset.univ x y = y := by
  funext i
  simp [mix]

/-- Exchange the rows `r` and `c`. -/
def swapRows (M : Matrix ι ι F) (r c : ι) : Matrix ι ι F := fun i ↦ M (Equiv.swap r c i)

/-- Exchange the columns `r` and `c`. -/
def swapCols (M : Matrix ι ι F) (r c : ι) : Matrix ι ι F := fun i j ↦ M i (Equiv.swap r c j)

@[simp] theorem swapRows_self (M : Matrix ι ι F) (r : ι) : swapRows M r r = M := by
  funext i
  simp [swapRows]

variable [Field F] [Fintype ι]

/-- `M` is `A` with the indices in `P` exchanged. -/
def Solved (A : Matrix ι ι F) (P : Finset ι) (M : Matrix ι ι F) : Prop :=
  ∀ x, M.mulVec (mix P x (A.mulVec x)) = mix P (A.mulVec x) x

theorem Solved.init (A : Matrix ι ι F) : Solved A ∅ A := fun x ↦ by
  rw [mix_empty, mix_empty]

/-- The pivot row: divided by the pivot, with the reciprocal in the pivot's place. -/
def pivotRow (M : Matrix ι ι F) (c : ι) : ι → F :=
  fun j ↦ (M c c)⁻¹ * (if j = c then 1 else M c j)

/-- Exchange index `c` in place, in characteristic two. -/
def exchange (M : Matrix ι ι F) (c : ι) : Matrix ι ι F := fun i j ↦
  if i = c then pivotRow M c j else (if j = c then 0 else M i j) + M i c * pivotRow M c j

theorem swapRows_mulVec (M : Matrix ι ι F) (r c : ι) (x : ι → F) (i : ι) :
    (swapRows M r c).mulVec x i = M.mulVec x (Equiv.swap r c i) := rfl

/-- Swapping two unsolved rows of the exchanged matrix swaps the rows of `A`. -/
theorem Solved.swap {A M : Matrix ι ι F} {P : Finset ι} {r c : ι} (h : Solved A P M)
    (hr : r ∉ P) (hc : c ∉ P) : Solved (swapRows A r c) P (swapRows M r c) := by
  intro x
  have hP : ∀ i, Equiv.swap r c i ∈ P ↔ i ∈ P := by
    intro i
    by_cases hir : i = r
    · subst hir; simp [hr, hc]
    by_cases hic : i = c
    · subst hic; simp [hr, hc]
    · rw [Equiv.swap_apply_of_ne_of_ne hir hic]
  have hin : mix P x ((swapRows A r c).mulVec x) = mix P x (A.mulVec x) := by
    funext i
    by_cases hi : i ∈ P
    · have hir : i ≠ r := fun e ↦ hr (e ▸ hi)
      have hic : i ≠ c := fun e ↦ hc (e ▸ hi)
      simp only [mix, hi, if_true, swapRows_mulVec]
      rw [Equiv.swap_apply_of_ne_of_ne hir hic]
    · simp only [mix, hi, if_false]
  funext i
  rw [swapRows_mulVec, hin, h x]
  by_cases hi : i ∈ P
  · have hir : i ≠ r := fun e ↦ hr (e ▸ hi)
    have hic : i ≠ c := fun e ↦ hc (e ▸ hi)
    simp only [mix, hP, hi, if_true]
    rw [Equiv.swap_apply_of_ne_of_ne hir hic]
  · simp only [mix, hP, hi, if_false, swapRows_mulVec]

/-- Solving the `c`-th equation for the unsolved `u c`. -/
theorem pivotRow_solves (hF : ∀ a : F, a + a = 0) {M : Matrix ι ι F} {c : ι} {u w : ι → F}
    (hpiv : M c c ≠ 0) (hu : ∀ j, j ≠ c → w j = u j) (hw : w c = M.mulVec u c) :
    ∑ j, pivotRow M c j * w j = u c := by
  have hrow : M.mulVec u c = M c c * u c + ∑ j ∈ Finset.univ.erase c, M c j * u j :=
    (Finset.add_sum_erase _ (fun j ↦ M c j * u j) (Finset.mem_univ c)).symm
  have hrest : ∑ j ∈ Finset.univ.erase c, pivotRow M c j * w j
      = (M c c)⁻¹ * ∑ j ∈ Finset.univ.erase c, M c j * u j := by
    rw [Finset.mul_sum]
    refine Finset.sum_congr rfl fun j hj ↦ ?_
    have hjc : j ≠ c := (Finset.mem_erase.mp hj).1
    rw [pivotRow, if_neg hjc, hu j hjc, mul_assoc]
  rw [← Finset.add_sum_erase _ _ (Finset.mem_univ c), hrest, pivotRow, if_pos rfl, mul_one, hw,
    hrow, mul_add, add_assoc, hF, add_zero, inv_mul_cancel_left₀ hpiv]

/-- An exchange at an unsolved index with a nonzero pivot. -/
theorem Solved.exchange (hF : ∀ a : F, a + a = 0) {A M : Matrix ι ι F} {P : Finset ι} {c : ι}
    (h : Solved A P M) (hc : c ∉ P) (hpiv : M c c ≠ 0) :
    Solved A (insert c P) (exchange M c) := by
  intro x
  have hM := h x
  generalize A.mulVec x = y at hM ⊢
  set u := mix P x y
  set w := mix (insert c P) x y
  have hu : ∀ j, j ≠ c → w j = u j := fun j hj ↦ by simp [w, u, mix, hj]
  have huc : u c = x c := by simp [u, mix, hc]
  have hwc : w c = M.mulVec u c := by
    rw [hM]
    simp [w, mix, hc]
  have hsolve := pivotRow_solves hF hpiv hu hwc
  funext i
  by_cases hi : i = c
  · subst hi
    have hval : (Exchange.exchange M i).mulVec w i = ∑ j, pivotRow M i j * w j :=
      Finset.sum_congr rfl fun j _ ↦ by simp [Exchange.exchange]
    rw [hval, hsolve, huc]
    simp [mix]
  · have hval : (Exchange.exchange M c).mulVec w i
        = ∑ j, (if j = c then 0 else M i j) * w j + M i c * ∑ j, pivotRow M c j * w j := by
      rw [Finset.mul_sum, ← Finset.sum_add_distrib]
      refine Finset.sum_congr rfl fun j _ ↦ ?_
      simp only [Exchange.exchange, if_neg hi]
      ring
    have hrest : ∑ j, (if j = c then 0 else M i j) * w j
        = ∑ j ∈ Finset.univ.erase c, M i j * u j := by
      rw [← Finset.add_sum_erase _ _ (Finset.mem_univ c), if_pos rfl, zero_mul, zero_add]
      refine Finset.sum_congr rfl fun j hj ↦ ?_
      have hjc : j ≠ c := (Finset.mem_erase.mp hj).1
      rw [if_neg hjc, hu j hjc]
    have hMu : M.mulVec u i = M i c * u c + ∑ j ∈ Finset.univ.erase c, M i j * u j :=
      (Finset.add_sum_erase _ (fun j ↦ M i j * u j) (Finset.mem_univ c)).symm
    rw [hval, hsolve, hrest, add_comm, ← hMu, hM]
    simp [mix, hi]

/-- While an index is unsolved, an invertible matrix has a nonzero entry in an
unsolved row and an unsolved column. -/
theorem Solved.exists_pivot {A M : Matrix ι ι F} {P : Finset ι} (h : Solved A P M)
    (hA : A.det ≠ 0) {r : ι} (hr : r ∉ P) : ∃ i ∉ P, ∃ j ∉ P, M i j ≠ 0 := by
  by_contra hno
  push Not at hno
  -- an `x` with `A x` the unit vector at `r`: the `r`-th equation then reads `1 = 0`
  have hunit : IsUnit A.det := isUnit_iff_ne_zero.mpr hA
  set x := A⁻¹.mulVec (Pi.single r 1) with hx
  have hAx : A.mulVec x = Pi.single r 1 := by
    rw [hx, Matrix.mulVec_mulVec, Matrix.mul_nonsing_inv A hunit, Matrix.one_mulVec]
  have hrow := congrFun (h x) r
  rw [hAx] at hrow
  have hleft : M.mulVec (mix P x (Pi.single r 1)) r = 0 := by
    refine Finset.sum_eq_zero fun j _ ↦ ?_
    by_cases hj : j ∈ P
    · have hjr : j ≠ r := fun e ↦ hr (e ▸ hj)
      simp [mix, hj, Pi.single_eq_of_ne hjr]
    · exact mul_eq_zero_of_left (hno r hr j hj) _
  rw [hleft] at hrow
  simp [mix, hr] at hrow

/-- With every index exchanged the matrix is the inverse. -/
theorem Solved.mul_eq_one {A M : Matrix ι ι F} (h : Solved A Finset.univ M) : M * A = 1 := by
  refine Matrix.ext_of_mulVec_single fun j ↦ ?_
  have hj := h (Pi.single j 1)
  rw [← Matrix.mulVec_mulVec, Matrix.one_mulVec]
  simpa using hj

/-- Undoing a swap of rows of the inverted matrix is a swap of columns of the inverse. -/
theorem swapCols_mul_eq_one {A M : Matrix ι ι F} {r c : ι} (h : M * swapRows A r c = 1) :
    swapCols M r c * A = 1 := by
  rw [← h]
  ext i j
  simp only [Matrix.mul_apply, swapCols, swapRows]
  exact Equiv.sum_comp (Equiv.swap r c) (fun k ↦ M i k * A (Equiv.swap r c k) j) ▸
    Finset.sum_congr rfl fun k _ ↦ by rw [Equiv.swap_apply_self]

theorem det_swapRows_ne_zero {A : Matrix ι ι F} (hA : A.det ≠ 0) (r c : ι) :
    (swapRows A r c).det ≠ 0 := by
  have h := Matrix.det_permute (Equiv.swap r c) A
  change (A.submatrix (Equiv.swap r c) id).det ≠ 0
  rw [h]
  refine mul_ne_zero ?_ hA
  rcases Int.units_eq_one_or (Equiv.Perm.sign (Equiv.swap r c)) with hs | hs <;> simp [hs]

end Exchange
