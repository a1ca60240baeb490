import Mathlib
import WfbBridge.Fec.Arith
import WfbBridge.Fec.InvertMat

/-!
# `fec_encode` and `fec_decode`

An array of block pointers together with its count is a list of buffers.  The
specifications of `fecEncode`, `reduce` and `resolve` say that, inside the
bounds, each of them succeeds, and give every byte of the result as an
expression over the field; what these expressions are good for is the subject of
`WfbBridge.Fec.Recover`.
-/

namespace WfbBridge.Fec

open Gf Checked

/-- `fec_encode`: a column of the code at a time, over all FEC blocks. -/
def fecEncode (blockSize : ℕ) (dataBlocks fecBlocks : List (List UInt8)) :
    Except Fault (List (List UInt8)) :=
  match dataBlocks with
  | [] => .ok fecBlocks
  | first :: rest => do
      let fec ← Loop.forEach (fun row dst ↦ do
        let c ← inverseAt (128 ^^^ row)
        mul dst first c blockSize) 0 fecBlocks
      (rest.zipIdx 129).foldlM (fun fec (src, col) ↦
        Loop.forEach (fun row dst ↦ do
          let c ← inverseAt (row ^^^ col)
          addmul dst src c blockSize) 0 fec) fec

/-- `reduce`, from column `col` on: take the received data blocks out of the FEC
blocks.  `erased` is `erased_blocks` from `erasedIdx` on. -/
def reduce (blockSize : ℕ) (nos : List ℕ) : ℕ → List (List UInt8) → List ℕ →
    List (List UInt8) → Except Fault (List (List UInt8))
  | _, [], _, fec => .ok fec
  | col, src :: data, erased, fec =>
      if erased.head? = some col then reduce blockSize nos (col + 1) data erased.tail fec
      else do
        let fec ← Loop.forEach (fun j dst ↦ do
          let blno ← readAt .index nos j
          let c ← inverseAt (blno ^^^ col ^^^ 128)
          addmul dst src c blockSize) 0 fec
        reduce blockSize nos (col + 1) data erased fec

/-- The matrix `resolve` builds: a row for each FEC block, a column for each
erased block. -/
def resolveMatrix (nos erased : List ℕ) : Square erased.length := fun row col ↦
  inverse (UInt8.ofNat ((128 + nos.getD row 0) ^^^ erased[col]))

/-- Every index of `inverse` that is read to build the matrix is in the table. -/
def MatrixInTable (nos erased : List ℕ) : Prop :=
  ∀ row col : Fin erased.length, (128 + nos.getD row 0) ^^^ erased[col] ≤ gfSize

instance (nos erased : List ℕ) : Decidable (MatrixInTable nos erased) :=
  inferInstanceAs (Decidable (∀ _ _, _))

/-- One row of the multiplication at the end of `resolve`: `mul` for the first
FEC block and `addmul` for the others. -/
def combine (blockSize : ℕ) (target : List UInt8) :
    List (UInt8 × List UInt8) → Except Fault (List UInt8)
  | [] => .ok target
  | (c, src) :: rest => do
      let target ← mul target src c blockSize
      rest.foldlM (fun target (c, src) ↦ addmul target src c blockSize) target

/-- `resolve`.  A failed inversion is reported and then ignored: `assert` is
compiled out. -/
def resolve (blockSize : ℕ) (data fec : List (List UInt8)) (nos erased : List ℕ) :
    Except Fault (List (List UInt8)) :=
  if MatrixInTable nos erased then
    let matrix := (invertMat (resolveMatrix nos erased)).1
    (List.finRange erased.length).foldlM (fun data row ↦ do
      let target ← readAt .index data erased[row]
      let target ← combine blockSize target
        ((List.finRange erased.length).map fun col ↦ (matrix row col, fec.getD col []))
      .ok (data.set erased[row] target)) data
  else .error .table

/-- `fec_decode`, with `nr_fec_blocks` the number of erased blocks: that many FEC
blocks and their numbers are read. -/
def fecDecode (blockSize : ℕ) (data fec : List (List UInt8)) (nos erased : List ℕ) :
    Except Fault (List (List UInt8)) :=
  if fec.length < erased.length ∨ nos.length < erased.length then .error .index
  else do
    let reduced ← reduce blockSize nos 0 data erased (fec.take erased.length)
    resolve blockSize data reduced nos erased

/-! ## The loops over the FEC blocks -/

/-- Row by row, `r` is what an operation on the first `sz` bytes of `fec` leaves. -/
structure RowsOverwrite (fec : List (List UInt8)) (sz : ℕ) (f : ℕ → ℕ → Gf)
    (r : List (List UInt8)) : Prop where
  length : r.length = fec.length
  row : ∀ (j : ℕ) (x y : List UInt8), fec[j]? = some x → r[j]? = some y → Overwrites x sz (f j) y

/-- Byte `p` of block `i` of a list of blocks. -/
def blockByte (bs : List (List UInt8)) (i p : ℕ) : Gf := byteAt (bs.getD i []) p

theorem blockByte_of_getElem? {bs : List (List UInt8)} {i : ℕ} {b : List UInt8}
    (h : bs[i]? = some b) (p : ℕ) : blockByte bs i p = byteAt b p := by
  rw [blockByte, List.getD_eq_getElem?_getD, h, Option.getD_some]

section Rows

variable {fec : List (List UInt8)} {sz : ℕ} {f : ℕ → ℕ → Gf} {r : List (List UInt8)}

theorem RowsOverwrite.refl (h : ∀ j < fec.length, ∀ p < sz, f j p = blockByte fec j p) :
    RowsOverwrite fec sz f fec := by
  refine ⟨rfl, fun j x y hx hy ↦ ?_⟩
  obtain rfl : x = y := Option.some.inj (hx.symm.trans hy)
  refine ⟨rfl, fun p hp ↦ ?_, fun _ _ ↦ rfl⟩
  rw [h j (List.getElem?_eq_some_iff.mp hx).1 p hp, blockByte_of_getElem? hx]

theorem RowsOverwrite.exists_row (h : RowsOverwrite fec sz f r) {j : ℕ} {y : List UInt8}
    (hy : r[j]? = some y) : ∃ x, fec[j]? = some x ∧ Overwrites x sz (f j) y := by
  have hj : j < fec.length := by rw [← h.length]; exact (List.getElem?_eq_some_iff.mp hy).1
  exact ⟨fec[j], List.getElem?_eq_getElem hj, h.row j _ y (List.getElem?_eq_getElem hj) hy⟩

theorem RowsOverwrite.le_length (h : RowsOverwrite fec sz f r) {n : ℕ}
    (hlen : ∀ x ∈ fec, n ≤ x.length) : ∀ y ∈ r, n ≤ y.length := by
  intro y hy
  obtain ⟨j, hj⟩ := List.mem_iff_getElem?.mp hy
  obtain ⟨x, hx, hov⟩ := h.exists_row hj
  rw [hov.length]
  exact hlen x (List.mem_of_getElem? hx)

theorem RowsOverwrite.blockByte (h : RowsOverwrite fec sz f r) {j p : ℕ} (hj : j < fec.length)
    (hp : p < sz) : Fec.blockByte r j p = f j p := by
  have hj' : j < r.length := by rw [h.length]; exact hj
  rw [blockByte_of_getElem? (List.getElem?_eq_getElem hj')]
  exact (h.row j _ _ (List.getElem?_eq_getElem hj) (List.getElem?_eq_getElem hj')).at_lt p hp

theorem RowsOverwrite.trans {g : ℕ → ℕ → Gf} {r' : List (List UInt8)}
    (h : RowsOverwrite fec sz f r) (h' : RowsOverwrite r sz g r') : RowsOverwrite fec sz g r' := by
  refine ⟨h'.length.trans h.length, fun j x z hx hz ↦ ?_⟩
  obtain ⟨y, hy, hov⟩ := h'.exists_row hz
  exact (h.row j x y hx hy).trans hov

theorem RowsOverwrite.congr {g : ℕ → ℕ → Gf} (h : RowsOverwrite fec sz f r)
    (hfg : ∀ j < fec.length, ∀ p < sz, f j p = g j p) : RowsOverwrite fec sz g r :=
  ⟨h.length, fun j x y hx hy ↦
    (h.row j x y hx hy).congr (hfg j (List.getElem?_eq_some_iff.mp hx).1)⟩

variable {c : ℕ → UInt8}

/-- A loop of `addmul` with one source over all FEC blocks. -/
theorem forEach_addmul (fec : List (List UInt8)) (src : List UInt8)
    (coef : ℕ → Except Fault UInt8) (hcoef : ∀ j < fec.length, coef j = .ok (c j))
    (hfec : ∀ x ∈ fec, sz ≤ x.length) (hsrc : sz ≤ src.length) :
    ∃ r, Loop.forEach (fun j dst ↦ do
        let k ← coef j
        addmul dst src k sz) 0 fec = .ok r ∧
      RowsOverwrite fec sz (fun j p ↦ Fec.blockByte fec j p + toGf (c j) * byteAt src p) r := by
  obtain ⟨r, hr, hlen, hrow⟩ := Loop.forEach_spec (fun j dst ↦ do
      let k ← coef j
      addmul dst src k sz)
    (fun j x y ↦ Overwrites x sz (fun p ↦ Fec.blockByte fec j p + toGf (c j) * byteAt src p) y)
    fec fun j x hx ↦ by
      rw [hcoef j (List.getElem?_eq_some_iff.mp hx).1, ok_bind]
      obtain ⟨y, hy, hov⟩ := addmul_spec (c := c j) (hfec x (List.mem_of_getElem? hx)) hsrc
      exact ⟨y, hy, hov.congr fun p _ ↦ by rw [blockByte_of_getElem? hx]⟩
  exact ⟨r, hr, hlen, hrow⟩

/-- A loop of `mul` with one source over all FEC blocks. -/
theorem forEach_mul (fec : List (List UInt8)) (src : List UInt8)
    (coef : ℕ → Except Fault UInt8) (hcoef : ∀ j < fec.length, coef j = .ok (c j))
    (hfec : ∀ x ∈ fec, sz ≤ x.length) (hsrc : sz ≤ src.length) :
    ∃ r, Loop.forEach (fun j dst ↦ do
        let k ← coef j
        mul dst src k sz) 0 fec = .ok r ∧
      RowsOverwrite fec sz (fun j p ↦ toGf (c j) * byteAt src p) r := by
  obtain ⟨r, hr, hlen, hrow⟩ := Loop.forEach_spec (fun j dst ↦ do
      let k ← coef j
      mul dst src k sz)
    (fun j x y ↦ Overwrites x sz (fun p ↦ toGf (c j) * byteAt src p) y)
    fec fun j x hx ↦ by
      rw [hcoef j (List.getElem?_eq_some_iff.mp hx).1, ok_bind]
      exact mul_spec (hfec x (List.mem_of_getElem? hx)) hsrc
  exact ⟨r, hr, hlen, hrow⟩

end Rows

/-! ## Encoding -/

/-- The coefficient of data block `i` in FEC block `row`. -/
def coeff (row i : ℕ) : Gf := toGf (inverse (UInt8.ofNat (128 ^^^ row ^^^ i)))

theorem xor_lt_256 {a b : ℕ} (ha : a < 256) (hb : b < 256) : a ^^^ b < 256 :=
  Nat.xor_lt_two_pow (n := 8) ha hb

theorem add_eq_xor {i : ℕ} (hi : i < 128) : 128 + i = 128 ^^^ i := by
  revert hi i
  decide +kernel

/-- The loop over the columns of the code after the first, from column `col` on. -/
theorem foldlM_addmul {sz : ℕ} (rest : List (List UInt8)) (col : ℕ) (fec : List (List UInt8))
    (hcol : col + rest.length ≤ 256) (hrow : fec.length ≤ 256)
    (hfec : ∀ x ∈ fec, sz ≤ x.length) (hrest : ∀ x ∈ rest, sz ≤ x.length) :
    ∃ r, (rest.zipIdx col).foldlM (fun fec (src, col) ↦
        Loop.forEach (fun row dst ↦ do
          let c ← inverseAt (row ^^^ col)
          addmul dst src c sz) 0 fec) fec = .ok r ∧
      RowsOverwrite fec sz (fun row p ↦ blockByte fec row p +
        ∑ i ∈ Finset.range rest.length,
          toGf (inverse (UInt8.ofNat (row ^^^ (col + i)))) * blockByte rest i p) r := by
  induction rest generalizing col fec with
  | nil => exact ⟨fec, rfl, .refl fun j _ p _ ↦ by simp⟩
  | cons src rest ih =>
      rw [List.length_cons] at hcol
      obtain ⟨r, hr, hov⟩ := forEach_addmul fec src
        (fun row ↦ inverseAt (row ^^^ col))
        (fun j hj ↦ inverseAt_of_lt (xor_lt_256 (by omega) (by omega))) hfec
        (hrest src List.mem_cons_self)
      obtain ⟨r', hr', hov'⟩ := ih (col + 1) r (by omega) (by rw [hov.length]; exact hrow)
        (hov.le_length hfec) (fun x hx ↦ hrest x (List.mem_cons_of_mem _ hx))
      refine ⟨r', ?_, (hov.trans hov').congr fun j hj p hp ↦ ?_⟩
      · simp only [List.zipIdx_cons, List.foldlM_cons, hr, ok_bind, hr']
      · rw [hov.blockByte hj hp, List.length_cons, Finset.sum_range_succ', add_assoc,
          add_comm _ (_ * _)]
        simp only [blockByte, List.getD_cons_zero, List.getD_cons_succ, Nat.add_zero,
          Nat.add_right_comm, Nat.add_assoc]

/-- `fec_encode` as long as its table is large enough: FEC block `row` becomes the sum of the data
blocks with the coefficients of the row. -/
theorem fecEncode_spec (sz : ℕ) (data fec : List (List UInt8)) (hne : data ≠ [])
    (hn : data.length ≤ 128) (hf : fec.length ≤ 256) (hdata : ∀ x ∈ data, sz ≤ x.length)
    (hfec : ∀ x ∈ fec, sz ≤ x.length) :
    ∃ r, fecEncode sz data fec = .ok r ∧ RowsOverwrite fec sz
      (fun row p ↦ ∑ i ∈ Finset.range data.length, coeff row i * blockByte data i p) r := by
  obtain ⟨first, rest, rfl⟩ := List.exists_cons_of_ne_nil hne
  rw [List.length_cons] at hn
  obtain ⟨r, hr, hov⟩ := forEach_mul fec first
    (fun row ↦ inverseAt (128 ^^^ row))
    (fun j hj ↦ inverseAt_of_lt (xor_lt_256 (by omega) (by omega))) hfec
    (hdata first List.mem_cons_self)
  obtain ⟨r', hr', hov'⟩ := foldlM_addmul rest 129 r (by omega) (by rw [hov.length]; omega)
    (hov.le_length hfec) (fun x hx ↦ hdata x (List.mem_cons_of_mem _ hx))
  refine ⟨r', ?_, (hov.trans hov').congr fun j hj p hp ↦ ?_⟩
  · rw [fecEncode, hr, ok_bind, hr']
  · rw [hov.blockByte hj hp, List.length_cons, Finset.sum_range_succ', add_comm]
    congr 1
    · refine Finset.sum_congr rfl fun i hi ↦ ?_
      have hi' : i + 1 < 128 := by have := Finset.mem_range.mp hi; omega
      have hcol : j ^^^ (129 + i) = 128 ^^^ j ^^^ (i + 1) := by
        rw [show 129 + i = 128 + (i + 1) by omega, add_eq_xor hi', ← Nat.xor_assoc,
          Nat.xor_comm j 128]
      rw [hcol]
      simp [coeff, blockByte]
    · simp [coeff, blockByte]

/-- With more data blocks, the column of data block 128 is read outside the table. -/
theorem fecEncode_many (sz : ℕ) (data fec : List (List UInt8)) (hn : 128 < data.length)
    (hne : fec ≠ []) (hf : fec.length ≤ 256) (hdata : ∀ x ∈ data, sz ≤ x.length)
    (hfec : ∀ x ∈ fec, sz ≤ x.length) : fecEncode sz data fec = .error .table := by
  obtain ⟨first, rest, rfl⟩ := List.exists_cons_of_ne_nil
    (List.ne_nil_of_length_pos (by omega : 0 < data.length))
  rw [List.length_cons] at hn
  obtain ⟨r, hr, hov⟩ := forEach_mul fec first
    (fun row ↦ inverseAt (128 ^^^ row))
    (fun j hj ↦ inverseAt_of_lt (xor_lt_256 (by omega) (by omega))) hfec
    (hdata first List.mem_cons_self)
  have htake : (rest.take 127).length = 127 := List.length_take_of_le (by omega)
  obtain ⟨x, more, hdrop⟩ := List.exists_cons_of_ne_nil
    (List.ne_nil_of_length_pos (by rw [List.length_drop]; omega : 0 < (rest.drop 127).length))
  obtain ⟨r', hr', hov'⟩ := foldlM_addmul (rest.take 127) 129 r (by omega)
    (by rw [hov.length]; omega) (hov.le_length hfec)
    (fun y hy ↦ hdata y (List.mem_cons_of_mem _ (List.mem_of_mem_take hy)))
  obtain ⟨y, ys, rfl⟩ : ∃ y ys, r' = y :: ys := by
    refine List.exists_cons_of_ne_nil (List.ne_nil_of_length_pos ?_)
    rw [hov'.length, hov.length]
    exact List.length_pos_iff.mpr hne
  rw [fecEncode, hr, ok_bind, ← List.take_append_drop 127 rest, List.zipIdx_append, htake, hdrop,
    List.zipIdx_cons, List.foldlM_append, hr', ok_bind, List.foldlM_cons]
  rfl

/-! ## Decoding -/

/-- The list of the erased blocks is sorted,
so `reduce` finds `col` in it by looking at its head. -/
theorem head?_eq_some_of_mem {erased : List ℕ} {col : ℕ} (hsorted : erased.Pairwise (· < ·))
    (hge : ∀ e ∈ erased, col ≤ e) (h : col ∈ erased) : erased.head? = some col := by
  cases erased with
  | nil => exact absurd h List.not_mem_nil
  | cons e es =>
      rcases List.mem_cons.mp h with rfl | h
      · rfl
      · have hlt := (List.pairwise_cons.mp hsorted).1 col h
        have hle := hge e List.mem_cons_self
        omega

/-- One column of `reduce`: the data block is added to every FEC block. -/
theorem forEach_reduce {sz : ℕ} {nos : List ℕ} (hnos : ∀ no ∈ nos, no < 256) (col : ℕ)
    (hcol : col < 256) (fec : List (List UInt8)) (src : List UInt8) (hlen : fec.length ≤ nos.length)
    (hfec : ∀ x ∈ fec, sz ≤ x.length) (hsrc : sz ≤ src.length) :
    ∃ r, Loop.forEach (fun j dst ↦ do
        let blno ← readAt .index nos j
        let c ← inverseAt (blno ^^^ col ^^^ 128)
        addmul dst src c sz) 0 fec = .ok r ∧
      RowsOverwrite fec sz
        (fun j p ↦ blockByte fec j p + coeff (nos.getD j 0) col * byteAt src p) r := by
  have hget : ∀ j < fec.length, nos[j]? = some (nos.getD j 0) := fun j hj ↦ by
    have hj' : j < nos.length := by omega
    rw [List.getD_eq_getElem?_getD, List.getElem?_eq_getElem hj', Option.getD_some]
  obtain ⟨r, hr, hov⟩ := forEach_addmul fec src
    (fun j ↦ do
      let blno ← readAt .index nos j
      inverseAt (blno ^^^ col ^^^ 128))
    (c := fun j ↦ inverse (UInt8.ofNat (nos.getD j 0 ^^^ col ^^^ 128)))
    (fun j hj ↦ by
      have hno : nos.getD j 0 < 256 := hnos _ (List.mem_of_getElem? (hget j hj))
      rw [readAt_eq_ok.mpr (hget j hj), ok_bind,
        inverseAt_of_lt (xor_lt_256 (xor_lt_256 hno hcol) (by omega))])
    hfec hsrc
  simp only [bind_assoc] at hr
  refine ⟨r, hr, hov.congr fun j _ p _ ↦ ?_⟩
  rw [coeff, Nat.xor_comm _ 128, Nat.xor_assoc 128]

/-- `reduce` adds to every FEC block the data blocks that were not erased. -/
theorem reduce_spec (sz : ℕ) (nos : List ℕ) (hnos : ∀ no ∈ nos, no < 256)
    (data : List (List UInt8)) (col : ℕ) (erased : List ℕ) (fec : List (List UInt8))
    (hcol : col + data.length ≤ 256) (hsorted : erased.Pairwise (· < ·))
    (hge : ∀ e ∈ erased, col ≤ e) (hlen : fec.length ≤ nos.length)
    (hdata : ∀ i x, data[i]? = some x → col + i ∉ erased → sz ≤ x.length)
    (hfec : ∀ x ∈ fec, sz ≤ x.length) :
    ∃ r, reduce sz nos col data erased fec = .ok r ∧
      RowsOverwrite fec sz (fun j p ↦ blockByte fec j p +
        ∑ i ∈ Finset.range data.length, if col + i ∈ erased then 0 else
          coeff (nos.getD j 0) (col + i) * blockByte data i p) r := by
  induction data generalizing col erased fec with
  | nil => exact ⟨fec, rfl, .refl fun j _ p _ ↦ by simp⟩
  | cons src data ih =>
      rw [List.length_cons] at hcol
      have hsum : ∀ (f : ℕ → Gf), ∑ i ∈ Finset.range (src :: data).length, f i
          = ∑ i ∈ Finset.range data.length, f (i + 1) + f 0 := fun f ↦ by
        rw [List.length_cons, Finset.sum_range_succ']
      by_cases hhead : erased.head? = some col
      · -- `col` is the next erased block: it is skipped
        obtain ⟨es, rfl⟩ := List.head?_eq_some_iff.mp hhead
        have hgt : ∀ e ∈ es, col < e := fun e he ↦ (List.pairwise_cons.mp hsorted).1 e he
        have hmem : ∀ i, col + 1 + i ∈ es ↔ col + (i + 1) ∈ col :: es := fun i ↦ by
          rw [List.mem_cons, Nat.add_right_comm, Nat.add_assoc]
          constructor
          · exact Or.inr
          · rintro (h | h)
            · omega
            · exact h
        obtain ⟨r, hr, hov⟩ := ih (col + 1) es fec (by omega) (List.pairwise_cons.mp hsorted).2
          (fun e he ↦ hgt e he) hlen
          (fun i x hx hi ↦ hdata (i + 1) x (by simpa using hx) fun h ↦ hi ((hmem i).mpr h)) hfec
        refine ⟨r, by rw [reduce, if_pos hhead]; exact hr, hov.congr fun j _ p _ ↦ ?_⟩
        rw [hsum]
        simp only [hmem, blockByte, List.getD_cons_succ, List.mem_cons_self, if_true, add_zero]
        simp only [Nat.add_assoc, Nat.add_comm 1]
      · have hcolmem : col ∉ erased := fun h ↦ hhead (head?_eq_some_of_mem hsorted hge h)
        have hge' : ∀ e ∈ erased, col + 1 ≤ e := fun e he ↦
          Nat.lt_of_le_of_ne (hge e he) fun h ↦ hcolmem (h ▸ he)
        obtain ⟨r, hr, hov⟩ := forEach_reduce hnos col (by omega) fec src hlen hfec
          (hdata 0 src rfl hcolmem)
        obtain ⟨r', hr', hov'⟩ := ih (col + 1) erased r (by omega) hsorted hge'
          (by rw [hov.length]; exact hlen)
          (fun i x hx hi ↦ hdata (i + 1) x (by simpa using hx) (by
            rwa [Nat.add_right_comm, Nat.add_assoc] at hi))
          (hov.le_length hfec)
        refine ⟨r', by rw [reduce, if_neg hhead, hr, ok_bind, hr'],
          (hov.trans hov').congr fun j hj p hp ↦ ?_⟩
        rw [hov.blockByte hj hp, hsum, add_assoc, add_comm (coeff _ _ * _)]
        simp only [blockByte, List.getD_cons_zero, List.getD_cons_succ, Nat.add_assoc,
          Nat.add_comm 1, Nat.add_zero, hcolmem, if_false]

end WfbBridge.Fec
