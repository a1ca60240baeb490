import Mathlib

/-!
# Cauchy matrices

The matrix `1 / (x i - y j)` over a field is invertible as soon as the `x i` are
distinct, the `y j` are distinct, and no `x i` is a `y j`.  A vector in its
kernel gives a polynomial of degree below the size of the matrix that vanishes
at every `x i`.
-/

namespace CauchyMatrix

open Polynomial

variable {F ι : Type*} [Field F] [Fintype ι] [DecidableEq ι]

/-- The Cauchy matrix of two families of points. -/
def cauchy (x y : ι → F) : Matrix ι ι F := fun i j ↦ (x i - y j)⁻¹

/-- The numerator of `∑ j, v j / (X - y j)` over the common denominator. -/
noncomputable def numerator (y v : ι → F) : F[X] :=
  ∑ j, C (v j) * ∏ l ∈ Finset.univ.erase j, (X - C (y l))

theorem degree_numerator_lt [Nonempty ι] (y v : ι → F) :
    (numerator y v).natDegree < Fintype.card ι := by
  have hpos : 0 < Fintype.card ι := Fintype.card_pos
  have hle : (numerator y v).natDegree ≤ Fintype.card ι - 1 := by
    refine natDegree_sum_le_of_forall_le _ _ fun j _ ↦ ?_
    refine (natDegree_C_mul_le _ _).trans (le_of_eq ?_)
    rw [natDegree_prod_of_monic _ _ fun l _ ↦ monic_X_sub_C _]
    simp
  omega

/-- Away from the `y j`, the numerator is the sum of fractions times the denominator. -/
theorem eval_numerator {y v : ι → F} {a : F} (ha : ∀ j, a ≠ y j) :
    (numerator y v).eval a = (∑ j, (a - y j)⁻¹ * v j) * ∏ l, (a - y l) := by
  rw [numerator, eval_finsetSum, Finset.sum_mul]
  refine Finset.sum_congr rfl fun j _ ↦ ?_
  have hj : a - y j ≠ 0 := sub_ne_zero.mpr (ha j)
  rw [← Finset.mul_prod_erase _ (fun l ↦ a - y l) (Finset.mem_univ j)]
  simp only [eval_mul, eval_C, eval_prod, eval_sub, eval_X]
  field_simp

/-- At `y i` only the `i`-th summand of the numerator survives. -/
theorem eval_numerator_self (y v : ι → F) (i : ι) :
    (numerator y v).eval (y i) = v i * ∏ l ∈ Finset.univ.erase i, (y i - y l) := by
  rw [numerator, eval_finsetSum, Finset.sum_eq_single i]
  · simp [eval_prod]
  · intro j _ hji
    have hmem : i ∈ Finset.univ.erase j := Finset.mem_erase.mpr ⟨hji.symm, Finset.mem_univ i⟩
    have hzero : ∏ l ∈ Finset.univ.erase j, (y i - y l) = 0 :=
      Finset.prod_eq_zero hmem (sub_self _)
    simp [eval_prod, hzero]
  · intro h
    exact absurd (Finset.mem_univ i) h

theorem eq_zero_of_mulVec_eq_zero {x y v : ι → F} (hx : Function.Injective x)
    (hy : Function.Injective y) (hxy : ∀ i j, x i ≠ y j) (hv : (cauchy x y).mulVec v = 0) :
    v = 0 := by
  funext i
  have hne : Nonempty ι := ⟨i⟩
  have hroot : ∀ k, (numerator y v).eval (x k) = 0 := by
    intro k
    have hk : ∑ j, (x k - y j)⁻¹ * v j = 0 := congrFun hv k
    rw [eval_numerator (hxy k), hk, zero_mul]
  have hzero : numerator y v = 0 :=
    eq_zero_of_natDegree_lt_card_of_eval_eq_zero _ hx hroot (degree_numerator_lt y v)
  have hself := eval_numerator_self y v i
  rw [hzero, eval_zero] at hself
  have hprod : ∏ l ∈ Finset.univ.erase i, (y i - y l) ≠ 0 := by
    refine Finset.prod_ne_zero_iff.mpr fun l hl ↦ sub_ne_zero.mpr fun h ↦ ?_
    exact (Finset.mem_erase.mp hl).1 (hy h).symm
  exact (mul_eq_zero.mp hself.symm).resolve_right hprod

/-- A Cauchy matrix is invertible. -/
theorem det_ne_zero {x y : ι → F} (hx : Function.Injective x) (hy : Function.Injective y)
    (hxy : ∀ i j, x i ≠ y j) : (cauchy x y).det ≠ 0 := by
  intro hdet
  obtain ⟨v, hne, hv⟩ := Matrix.exists_mulVec_eq_zero_iff.mpr hdet
  exact hne (eq_zero_of_mulVec_eq_zero hx hy hxy hv)

end CauchyMatrix
