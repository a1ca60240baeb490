import Mathlib
import WfbBridge.Gf.Field
import WfbBridge.Library.Exchange

/-!
# `invert_mat`

The in-place Gauss-Jordan inversion of `fec.c`.  The flat array `src` is a
function of row and column; `indxr[col]` and `indxc[col]` are kept as one list of
pairs, the last column first, which is the order the unscrambling loop reads
them in.  The two `fail` exits leave the matrix as far as it got, with `error`
set: with assertions compiled out, `resolve` goes on with that matrix.

`invertMat_spec`: on an invertible matrix the function succeeds and leaves the
inverse.
-/

namespace WfbBridge.Fec

open Gf

variable {k : ℕ}

/-- `gf *src` with `k` rows and `k` columns. -/
abbrev Square (k : ℕ) : Type := Fin k → Fin k → UInt8

/-- The local variables of `invert_mat` that outlive one column. -/
structure Elim (k : ℕ) where
  src : Square k
  ipiv : Fin k → ℕ := fun _ ↦ 0
  indx : List (Fin k × Fin k) := []

namespace Elim

/-- The search for a pivot off the diagonal: the first nonzero entry in a row and
a column that were not used before.  `none` is a `goto fail` or no entry. -/
def scanPivot (s : Elim k) : List (Fin k × Fin k) → Option (Fin k × Fin k)
  | [] => none
  | (row, ix) :: rest =>
      if s.ipiv row ≠ 1 then
        if s.ipiv ix = 0 then
          if s.src row ix ≠ 0 then some (row, ix) else s.scanPivot rest
        else if 1 < s.ipiv ix then none
        else s.scanPivot rest
      else s.scanPivot rest

/-- The search for a pivot, on the diagonal first. -/
def findPivot (s : Elim k) (col : Fin k) : Option (Fin k × Fin k) :=
  if s.ipiv col ≠ 1 ∧ s.src col col ≠ 0 then some (col, col)
  else s.scanPivot (List.finRange k ×ˢ List.finRange k)

/-- From `found_piv`: mark the column, swap the pivot row into place, record both. -/
def choosePivot (s : Elim k) (irow icol : Fin k) : Elim k where
  src := if irow ≠ icol then fun i ↦ s.src (Equiv.swap irow icol i) else s.src
  ipiv := Function.update s.ipiv icol (s.ipiv icol + 1)
  indx := (irow, icol) :: s.indx

/-- `id_row` while column `icol` is treated. -/
def idRow (icol : Fin k) : Fin k → UInt8 := fun ix ↦ if ix = icol then 1 else 0

/-- `addmul(p, pivot_row, c, k)` on a row of the matrix. -/
def addmulRow (p row : Fin k → UInt8) (c : UInt8) : Fin k → UInt8 :=
  if c ≠ 0 then fun ix ↦ p ix ^^^ gfMul c (row ix) else p

/-- The pivot row after its division by the pivot. -/
def scaledRow (s : Elim k) (icol : Fin k) : Fin k → UInt8 :=
  let c := s.src icol icol
  if c ≠ 1 then fun ix ↦ gfMul (inverse c) (Function.update (s.src icol) icol 1 ix)
  else s.src icol

/-- Divide the pivot row and clear the pivot's column from all other rows, unless
the pivot row is a row of the identity. -/
def clearColumn (s : Elim k) (icol : Fin k) : Elim k :=
  let row := s.scaledRow icol
  { s with src :=
      if row ≠ idRow icol then fun i ↦
        if i = icol then row
        else addmulRow (Function.update (s.src i) icol 0) row (s.src i icol)
      else Function.update s.src icol row }

/-- The loop over the columns; the flag is `error`. -/
def eliminate : List (Fin k) → Elim k → Elim k × Bool
  | [], s => (s, false)
  | col :: cols, s =>
      match s.findPivot col with
      | none => (s, true)
      | some (irow, icol) =>
          let s := s.choosePivot irow icol
          if s.src icol icol = 0 then (s, true) else eliminate cols (s.clearColumn icol)

/-- The last loop: swap back the columns, in the reverse order of the pivots. -/
def unscramble (src : Square k) : List (Fin k × Fin k) → Square k
  | [] => src
  | (r, c) :: rest =>
      unscramble (if r ≠ c then fun i j ↦ src i (Equiv.swap r c j) else src) rest

end Elim

/-- `invert_mat`: the matrix it leaves, and its result `error`. -/
def invertMat (src : Square k) : Square k × Bool :=
  match Elim.eliminate (List.finRange k) { src } with
  | (s, true) => (s.src, true)
  | (s, false) => (Elim.unscramble s.src s.indx, false)

/-! ## Correctness -/

/-- A matrix of bytes as a matrix over the field. -/
def toMatrix (src : Square k) : Matrix (Fin k) (Fin k) Gf := fun i j ↦ toGf (src i j)

namespace Elim

/-- The original matrix after the recorded swaps of rows. -/
def swapped (A : Matrix (Fin k) (Fin k) Gf) :
    List (Fin k × Fin k) → Matrix (Fin k) (Fin k) Gf
  | [] => A
  | (r, c) :: rest => Exchange.swapRows (swapped A rest) r c

/-- The invariant of the column loop: `ipiv` marks the solved columns `P`, and the
matrix is the original one with its rows swapped and `P` exchanged. -/
structure Inv (A : Matrix (Fin k) (Fin k) Gf) (P : Finset (Fin k)) (s : Elim k) : Prop where
  ipiv : ∀ i, s.ipiv i = if i ∈ P then 1 else 0
  solved : Exchange.Solved (swapped A s.indx) P (toMatrix s.src)

theorem Inv.init (src : Square k) : Inv (toMatrix src) ∅ { src } where
  ipiv := by simp
  solved := Exchange.Solved.init _

theorem det_swapped_ne_zero {A : Matrix (Fin k) (Fin k) Gf} (hA : A.det ≠ 0) :
    ∀ l, (swapped A l).det ≠ 0
  | [] => hA
  | (r, c) :: l => Exchange.det_swapRows_ne_zero (det_swapped_ne_zero hA l) r c

section Pivot

variable {A : Matrix (Fin k) (Fin k) Gf} {P : Finset (Fin k)} {s : Elim k}

theorem Inv.ipiv_ne_one (h : Inv A P s) {i : Fin k} : s.ipiv i ≠ 1 ↔ i ∉ P := by
  rw [h.ipiv]
  by_cases hi : i ∈ P <;> simp [hi]

/-- Under the invariant the scan never takes its `fail` exit, so it finds what
there is to find. -/
theorem Inv.scanPivot (h : Inv A P s) {l : List (Fin k × Fin k)} {i j : Fin k}
    (hmem : (i, j) ∈ l) (hi : i ∉ P) (hj : j ∉ P) (hne : s.src i j ≠ 0) :
    ∃ r c, s.scanPivot l = some (r, c) ∧ r ∉ P ∧ c ∉ P ∧ s.src r c ≠ 0 := by
  induction l with
  | nil => exact absurd hmem List.not_mem_nil
  | cons p rest ih =>
      obtain ⟨row, ix⟩ := p
      rw [Elim.scanPivot]
      by_cases hrow : row ∈ P
      · rw [if_neg (by rw [h.ipiv_ne_one]; simpa using hrow)]
        refine ih ((List.mem_cons.mp hmem).resolve_left ?_)
        rintro ⟨⟩
        exact hi hrow
      rw [if_pos (h.ipiv_ne_one.mpr hrow)]
      by_cases hix : ix ∈ P
      · rw [if_neg (by rw [h.ipiv, if_pos hix]; omega), if_neg (by rw [h.ipiv, if_pos hix]; omega)]
        refine ih ((List.mem_cons.mp hmem).resolve_left ?_)
        rintro ⟨⟩
        exact hj hix
      rw [if_pos (by rw [h.ipiv, if_neg hix])]
      by_cases hz : s.src row ix = 0
      · rw [if_neg (not_not.mpr hz)]
        refine ih ((List.mem_cons.mp hmem).resolve_left ?_)
        rintro ⟨⟩
        exact hne hz
      · exact ⟨row, ix, if_pos hz, hrow, hix, hz⟩

theorem Inv.findPivot (h : Inv A P s) (hA : A.det ≠ 0) (hP : P ≠ Finset.univ) (col : Fin k) :
    ∃ r c, s.findPivot col = some (r, c) ∧ r ∉ P ∧ c ∉ P ∧ s.src r c ≠ 0 := by
  rw [Elim.findPivot]
  by_cases hdiag : s.ipiv col ≠ 1 ∧ s.src col col ≠ 0
  · have hcol := h.ipiv_ne_one.mp hdiag.1
    exact ⟨col, col, if_pos hdiag, hcol, hcol, hdiag.2⟩
  · rw [if_neg hdiag]
    obtain ⟨r, hr⟩ : ∃ r, r ∉ P := by
      by_contra hall
      push Not at hall
      exact hP (Finset.eq_univ_iff_forall.mpr hall)
    obtain ⟨i, hi, j, hj, hne⟩ := h.solved.exists_pivot (det_swapped_ne_zero hA _) hr
    exact h.scanPivot (by simp) hi hj (fun hz ↦ hne (toGf_eq_zero.mpr hz))

/-- Marking a pivot and swapping its row into place. -/
theorem Inv.choosePivot (h : Inv A P s) {r c : Fin k} (hr : r ∉ P) (hc : c ∉ P)
    (hne : s.src r c ≠ 0) :
    Exchange.Solved (swapped A (s.choosePivot r c).indx) P (toMatrix (s.choosePivot r c).src) ∧
      (s.choosePivot r c).src c c ≠ 0 ∧
      ∀ i, (s.choosePivot r c).ipiv i = if i ∈ insert c P then 1 else 0 := by
  have hsrc : (s.choosePivot r c).src = fun i ↦ s.src (Equiv.swap r c i) := by
    by_cases hrc : r = c
    · subst hrc
      funext i
      simp [Elim.choosePivot]
    · simp [Elim.choosePivot, hrc]
  refine ⟨?_, ?_, ?_⟩
  · rw [hsrc]
    exact h.solved.swap hr hc
  · rw [hsrc]
    simpa using hne
  · intro i
    by_cases hic : i = c
    · subst hic
      simp [Elim.choosePivot, h.ipiv, hc]
    · simp [Elim.choosePivot, h.ipiv, hic]

theorem toGf_scaledRow {s : Elim k} {c : Fin k} (j : Fin k) :
    toGf (s.scaledRow c j) = Exchange.pivotRow (toMatrix s.src) c j := by
  have hupd : toGf (Function.update (s.src c) c 1 j)
      = if j = c then 1 else toMatrix s.src c j := by
    by_cases hj : j = c
    · subst hj; simp
    · simp [hj, toMatrix]
  rw [Exchange.pivotRow, scaledRow]
  by_cases h1 : s.src c c = 1
  · have hM : toMatrix s.src c c = 1 := congrArg toGf h1
    simp only [h1, ne_eq, not_true_eq_false, if_false, hM, inv_one, one_mul]
    by_cases hj : j = c
    · subst hj
      rw [if_pos rfl]
      exact hM
    · simp [hj, toMatrix]
  · simp only [ne_eq, h1, not_false_eq_true, if_true, toGf_gfMul, toGf_inverse, hupd]
    rfl

theorem toGf_addmulRow (p row : Fin k → UInt8) (c : UInt8) (j : Fin k) :
    toGf (addmulRow p row c j) = toGf (p j) + toGf c * toGf (row j) := by
  by_cases hc : c = 0
  · subst hc; simp [addmulRow]
  · simp [addmulRow, hc]

/-- Clearing a column is an exchange; skipping it for a row
of the identity makes no difference. -/
theorem toMatrix_clearColumn (s : Elim k) (c : Fin k) :
    toMatrix (s.clearColumn c).src = Exchange.exchange (toMatrix s.src) c := by
  funext i j
  have hupd : toGf (Function.update (s.src i) c 0 j)
      = if j = c then 0 else toMatrix s.src i j := by
    by_cases hj : j = c
    · subst hj; simp
    · simp [hj, toMatrix]
  by_cases hrow : s.scaledRow c = idRow c
  · have hsrc : (s.clearColumn c).src = Function.update s.src c (s.scaledRow c) := by
      simp [Elim.clearColumn, hrow]
    by_cases hi : i = c
    · subst hi
      rw [toMatrix, hsrc, Function.update_self, toGf_scaledRow]
      simp [Exchange.exchange]
    · rw [toMatrix, hsrc, Function.update_of_ne hi, Exchange.exchange, if_neg hi,
        ← toGf_scaledRow, hrow, idRow]
      by_cases hj : j = c
      · subst hj; simp [toMatrix]
      · simp [hj, toMatrix]
  · have hsrc : (s.clearColumn c).src i = if i = c then s.scaledRow c
        else addmulRow (Function.update (s.src i) c 0) (s.scaledRow c) (s.src i c) := by
      simp [Elim.clearColumn, hrow]
    by_cases hi : i = c
    · rw [toMatrix, hsrc, if_pos hi, toGf_scaledRow, Exchange.exchange, if_pos hi]
    · rw [toMatrix, hsrc, if_neg hi, toGf_addmulRow, hupd, toGf_scaledRow, Exchange.exchange,
        if_neg hi]
      rfl

end Pivot

/-- The column loop on an invertible matrix: no `fail` exit, and in the end every
column is solved.  The induction is on the columns still to come, one of the
unsolved ones going with each. -/
theorem Inv.eliminate {A : Matrix (Fin k) (Fin k) Gf} (hA : A.det ≠ 0) (cols : List (Fin k))
    {P : Finset (Fin k)} {s : Elim k} (h : Inv A P s) (hcard : P.card + cols.length = k) :
    ∃ s', Elim.eliminate cols s = (s', false) ∧ Inv A Finset.univ s' := by
  induction cols generalizing P s with
  | nil =>
      have hP : P = Finset.univ := by
        rw [← Finset.card_eq_iff_eq_univ, Fintype.card_fin]
        simpa using hcard
      exact ⟨s, rfl, hP ▸ h⟩
  | cons col cols ih =>
      have hP : P ≠ Finset.univ := by
        rintro rfl
        rw [Finset.card_univ, Fintype.card_fin, List.length_cons] at hcard
        omega
      obtain ⟨r, c, hfind, hr, hc, hne⟩ := h.findPivot hA hP col
      obtain ⟨hsolved, hpiv, hipiv⟩ := h.choosePivot hr hc hne
      have hnext : Inv A (insert c P) ((s.choosePivot r c).clearColumn c) := by
        refine ⟨hipiv, ?_⟩
        rw [toMatrix_clearColumn]
        exact hsolved.exchange add_self hc (fun hz ↦ hpiv (toGf_eq_zero.mp hz))
      rw [Elim.eliminate, hfind]
      simp only [hpiv, if_false]
      refine ih hnext ?_
      rw [Finset.card_insert_of_notMem hc]
      rw [List.length_cons] at hcard
      omega

/-- Swapping the columns back turns an inverse of the row-swapped matrix into an
inverse of the original one. -/
theorem unscramble_mul {A : Matrix (Fin k) (Fin k) Gf} :
    ∀ (l : List (Fin k × Fin k)) (src : Square k), toMatrix src * swapped A l = 1 →
      toMatrix (unscramble src l) * A = 1
  | [], _, h => h
  | (r, c) :: l, src, h => by
      refine unscramble_mul l _ ?_
      by_cases hrc : r = c
      · subst hrc
        simpa [swapped] using h
      · rw [if_pos hrc]
        exact Exchange.swapCols_mul_eq_one (A := swapped A l) (M := toMatrix src) h

end Elim

/-- `invert_mat` inverts every invertible matrix. -/
theorem invertMat_spec {src : Square k} (hdet : (toMatrix src).det ≠ 0) :
    (invertMat src).2 = false ∧ toMatrix (invertMat src).1 * toMatrix src = 1 := by
  obtain ⟨s, hs, hinv⟩ := (Elim.Inv.init src).eliminate hdet (List.finRange k) (by simp)
  rw [invertMat, hs]
  exact ⟨rfl, Elim.unscramble_mul s.indx s.src hinv.solved.mul_eq_one⟩

/-! ## Singular matrices -/

namespace Elim

variable {A : Matrix (Fin k) (Fin k) Gf} {P : Finset (Fin k)} {s : Elim k}

/-- What the scan finds can be a pivot. -/
theorem Inv.of_scanPivot (h : Inv A P s) {l : List (Fin k × Fin k)} {r c : Fin k}
    (hscan : s.scanPivot l = some (r, c)) : r ∉ P ∧ c ∉ P ∧ s.src r c ≠ 0 := by
  induction l with
  | nil => cases hscan
  | cons p rest ih =>
      obtain ⟨row, ix⟩ := p
      rw [Elim.scanPivot] at hscan
      split at hscan
      case isFalse => exact ih hscan
      case isTrue hrow =>
        split at hscan
        case isTrue hix =>
          split at hscan
          case isTrue hne =>
            obtain ⟨rfl, rfl⟩ := Prod.mk.inj (Option.some.inj hscan)
            exact ⟨h.ipiv_ne_one.mp hrow, h.ipiv_ne_one.mp (by omega), hne⟩
          case isFalse => exact ih hscan
        case isFalse =>
          split at hscan
          · cases hscan
          · exact ih hscan

theorem Inv.of_findPivot (h : Inv A P s) {col r c : Fin k} (hfind : s.findPivot col = some (r, c)) :
    r ∉ P ∧ c ∉ P ∧ s.src r c ≠ 0 := by
  rw [Elim.findPivot] at hfind
  split at hfind
  case isTrue hdiag =>
    obtain ⟨rfl, rfl⟩ := Prod.mk.inj (Option.some.inj hfind)
    exact ⟨h.ipiv_ne_one.mp hdiag.1, h.ipiv_ne_one.mp hdiag.1, hdiag.2⟩
  case isFalse => exact h.of_scanPivot hfind

/-- When no exit is taken, every column is solved, whatever the matrix. -/
theorem Inv.of_eliminate (cols : List (Fin k)) {s' : Elim k} (h : Inv A P s)
    (hcard : P.card + cols.length = k) (hdone : Elim.eliminate cols s = (s', false)) :
    Inv A Finset.univ s' := by
  induction cols generalizing P s with
  | nil =>
      have hP : P = Finset.univ := by
        rw [← Finset.card_eq_iff_eq_univ, Fintype.card_fin]
        simpa using hcard
      obtain rfl := (Prod.mk.inj hdone).1
      exact hP ▸ h
  | cons col cols ih =>
      rw [Elim.eliminate] at hdone
      split at hdone
      · cases hdone
      rename_i r c hfind
      obtain ⟨hr, hc, hne⟩ := h.of_findPivot hfind
      obtain ⟨hsolved, hpiv, hipiv⟩ := h.choosePivot hr hc hne
      simp only [hpiv, if_false] at hdone
      have hnext : Inv A (insert c P) ((s.choosePivot r c).clearColumn c) := by
        refine ⟨hipiv, ?_⟩
        rw [toMatrix_clearColumn]
        exact hsolved.exchange add_self hc (fun hz ↦ hpiv (toGf_eq_zero.mp hz))
      refine ih hnext ?_ hdone
      rw [Finset.card_insert_of_notMem hc]
      rw [List.length_cons] at hcard
      omega

end Elim

/-- `invert_mat` returns an error exactly for the singular matrices,
and leaves the inverse of any other one. -/
theorem invertMat_correct (src : Square k) :
    ((invertMat src).2 = true ↔ (toMatrix src).det = 0) ∧
      ((invertMat src).2 = false → toMatrix (invertMat src).1 * toMatrix src = 1 ∧
        toMatrix src * toMatrix (invertMat src).1 = 1) := by
  have hinverse : (invertMat src).2 = false → toMatrix (invertMat src).1 * toMatrix src = 1 := by
    intro hok
    rw [invertMat] at hok ⊢
    cases hrun : Elim.eliminate (List.finRange k) { src } with
    | mk s error =>
        rw [hrun] at hok
        cases error with
        | true => cases hok
        | false =>
            have hinv := (Elim.Inv.init src).of_eliminate (List.finRange k) (by simp) hrun
            exact Elim.unscramble_mul s.indx s.src hinv.solved.mul_eq_one
  refine ⟨⟨fun herror ↦ ?_, fun hdet ↦ ?_⟩,
    fun hok ↦ ⟨hinverse hok, mul_eq_one_comm.mp (hinverse hok)⟩⟩
  · by_contra hdet
    rw [(invertMat_spec hdet).1] at herror
    cases herror
  · by_contra herror
    have hone := congrArg Matrix.det (hinverse (Bool.eq_false_iff.mpr herror))
    rw [Matrix.det_mul, hdet, mul_zero, Matrix.det_one] at hone
    exact zero_ne_one hone

end WfbBridge.Fec
