import Mathlib
import WfbBridge.Fec.Code
import WfbBridge.Library.Cauchy

/-!
# Erasure recovery

`fecDecode_spec` describes the bytes `fec_decode` leaves for any arguments inside
the bounds.  `fecDecode_recovers` adds what makes it a decoder: if the FEC blocks
are code words of some data words which agree with the received data blocks,
every erased block becomes its data word.  The matrix to invert is a Cauchy
matrix, because `128 + row` and `col` are different points of the field for all
FEC blocks and all data blocks.
-/

namespace WfbBridge.Fec

open Gf Checked

/-! ## The multiplication in `resolve` -/

/-- The linear combination `combine` computes. -/
def combination (l : List (UInt8 × List UInt8)) (p : ℕ) : Gf :=
  (l.map fun cs ↦ toGf cs.1 * byteAt cs.2 p).sum

theorem foldlM_combine {sz : ℕ} (l : List (UInt8 × List UInt8)) (target : List UInt8)
    (ht : sz ≤ target.length) (hl : ∀ cs ∈ l, sz ≤ cs.2.length) :
    ∃ r, l.foldlM (fun target (c, src) ↦ addmul target src c sz) target = .ok r ∧
      Overwrites target sz (fun p ↦ byteAt target p + combination l p) r := by
  induction l generalizing target with
  | nil => exact ⟨target, rfl, rfl, fun p _ ↦ by simp [combination], fun _ _ ↦ rfl⟩
  | cons cs l ih =>
      obtain ⟨c, src⟩ := cs
      obtain ⟨r, hr, hov⟩ := addmul_spec (c := c) ht (hl (c, src) List.mem_cons_self)
      obtain ⟨r', hr', hov'⟩ := ih r (by rw [hov.length]; exact ht)
        (fun cs hcs ↦ hl cs (List.mem_cons_of_mem _ hcs))
      refine ⟨r', ?_, (hov.trans hov').congr fun p hp ↦ ?_⟩
      · simp only [List.foldlM_cons, hr, ok_bind, hr']
      · rw [hov.at_lt p hp]
        simp only [combination, List.map_cons, List.sum_cons, add_assoc]

theorem combine_spec (sz : ℕ) (target : List UInt8) {l : List (UInt8 × List UInt8)} (hne : l ≠ [])
    (ht : sz ≤ target.length) (hl : ∀ cs ∈ l, sz ≤ cs.2.length) :
    ∃ r, combine sz target l = .ok r ∧ Overwrites target sz (combination l) r := by
  obtain ⟨⟨c, src⟩, rest, rfl⟩ := List.exists_cons_of_ne_nil hne
  obtain ⟨r, hr, hov⟩ := mul_spec (c := c) ht (hl (c, src) List.mem_cons_self)
  obtain ⟨r', hr', hov'⟩ := foldlM_combine rest r (by rw [hov.length]; exact ht)
    (fun cs hcs ↦ hl cs (List.mem_cons_of_mem _ hcs))
  refine ⟨r', ?_, (hov.trans hov').congr fun p hp ↦ ?_⟩
  · rw [combine, hr, ok_bind, hr']
  · rw [hov.at_lt p hp]
    simp [combination]

theorem combination_finRange {n : ℕ} (m : Fin n → UInt8) (fec : List (List UInt8)) (p : ℕ) :
    combination ((List.finRange n).map fun col ↦ (m col, fec.getD col [])) p
      = ∑ col : Fin n, toGf (m col) * blockByte fec col p := by
  rw [combination, List.map_map, ← List.ofFn_eq_map, List.sum_ofFn]
  rfl

/-- The blocks an operation on the blocks `idx` leaves: the others are untouched. -/
structure BlocksOverwrite {n : ℕ} (data : List (List UInt8)) (sz : ℕ) (idx : Fin n → ℕ)
    (rows : List (Fin n)) (f : Fin n → ℕ → Gf) (data' : List (List UInt8)) : Prop where
  length : data'.length = data.length
  same : ∀ i, i ∉ rows.map idx → data'[i]? = data[i]?
  row : ∀ r ∈ rows, ∀ x y, data[idx r]? = some x → data'[idx r]? = some y → Overwrites x sz (f r) y

/-- The loop over the rows of the matrix, each row writing a block of its own. -/
theorem foldlM_rows {n sz : ℕ} (idx : Fin n → ℕ) {f : Fin n → ℕ → Gf}
    {step : Fin n → List UInt8 → Except Fault (List UInt8)}
    (hstep : ∀ r x, sz ≤ x.length → ∃ y, step r x = .ok y ∧ Overwrites x sz (f r) y)
    (rows : List (Fin n)) (data : List (List UInt8)) (hnd : (rows.map idx).Nodup)
    (hidx : ∀ r ∈ rows, idx r < data.length)
    (hdata : ∀ r ∈ rows, ∀ x, data[idx r]? = some x → sz ≤ x.length) :
    ∃ data', rows.foldlM (fun data row ↦ do
        let target ← readAt Fault.index data (idx row)
        let target ← step row target
        .ok (data.set (idx row) target)) data = .ok data' ∧
      BlocksOverwrite data sz idx rows f data' := by
  induction rows generalizing data with
  | nil => exact ⟨data, rfl, rfl, fun _ _ ↦ rfl, fun r hr ↦ absurd hr List.not_mem_nil⟩
  | cons r rows ih =>
      have hr : idx r < data.length := hidx r List.mem_cons_self
      have hget : data[idx r]? = some data[idx r] := List.getElem?_eq_getElem hr
      obtain ⟨hnotin, hnd'⟩ := List.nodup_cons.mp hnd
      have hother : ∀ r' ∈ rows, idx r ≠ idx r' := fun r' hr' h ↦
        hnotin (h ▸ List.mem_map_of_mem hr')
      obtain ⟨y, hy, hov⟩ := hstep r _ (hdata r List.mem_cons_self _ hget)
      obtain ⟨data', hd', hblocks⟩ := ih (data.set (idx r) y) hnd'
        (fun r' hr' ↦ by rw [List.length_set]; exact hidx r' (List.mem_cons_of_mem _ hr'))
        (fun r' hr' x hx ↦ by
          rw [List.getElem?_set_ne (hother r' hr')] at hx
          exact hdata r' (List.mem_cons_of_mem _ hr') x hx)
      refine ⟨data', ?_, ?_, ?_, ?_⟩
      · simp only [List.foldlM_cons, readAt_eq_ok.mpr hget, ok_bind, hy, hd']
      · rw [hblocks.length, List.length_set]
      · intro i hi
        rw [List.map_cons, List.mem_cons, not_or] at hi
        rw [hblocks.same i hi.2, List.getElem?_set_ne (Ne.symm hi.1)]
      · intro r' hr' x z hx hz
        rcases List.mem_cons.mp hr' with rfl | hr'
        · rw [hblocks.same _ hnotin, List.getElem?_set_self hr] at hz
          obtain rfl := Option.some.inj hz
          obtain rfl : x = data[idx r'] := Option.some.inj (hx.symm.trans hget)
          exact hov
        · refine hblocks.row r' hr' x z ?_ hz
          rw [List.getElem?_set_ne (hother r' hr')]
          exact hx

/-! ## `fec_decode` -/

/-- The inverse `resolve` works with. -/
def resolveInverse (nos erased : List ℕ) : Square erased.length :=
  (invertMat (resolveMatrix nos erased)).1

/-- FEC block `j` after `reduce`. -/
def reducedByte (data fec : List (List UInt8)) (nos erased : List ℕ) (j p : ℕ) : Gf :=
  blockByte fec j p + ∑ i ∈ Finset.range data.length,
    if i ∈ erased then 0 else coeff (nos.getD j 0) i * blockByte data i p

/-- What `fec_decode` needs to stay inside its buffers. -/
structure DecodeArgs (sz : ℕ) (data fec : List (List UInt8)) (nos erased : List ℕ) : Prop where
  fec_length : erased.length ≤ fec.length
  nos_length : fec.length = nos.length
  nos_lt : ∀ no ∈ nos, no < 128
  data_length : data.length ≤ 256
  sorted : erased.Pairwise (· < ·)
  erased_lt : ∀ e ∈ erased, e < data.length
  data_bytes : ∀ x ∈ data, sz ≤ x.length
  fec_bytes : ∀ x ∈ fec, sz ≤ x.length

section Decode

variable {sz : ℕ} {data fec : List (List UInt8)} {nos erased : List ℕ}

theorem DecodeArgs.nodup (h : DecodeArgs sz data fec nos erased) : erased.Nodup :=
  h.sorted.imp fun hlt ↦ Nat.ne_of_lt hlt

theorem DecodeArgs.getD_lt (h : DecodeArgs sz data fec nos erased) {j : ℕ}
    (hj : j < erased.length) : nos.getD j 0 < 128 := by
  have hj' : j < nos.length := by
    have := h.fec_length
    have := h.nos_length
    omega
  rw [List.getD_eq_getElem?_getD, List.getElem?_eq_getElem hj', Option.getD_some]
  exact h.nos_lt _ (List.getElem_mem hj')

theorem DecodeArgs.matrixInTable (h : DecodeArgs sz data fec nos erased) :
    MatrixInTable nos erased := by
  intro row col
  have hrow := h.getD_lt row.isLt
  have hcol := h.erased_lt _ (List.getElem_mem col.isLt)
  have hlen := h.data_length
  have := xor_lt_256 (a := 128 + nos.getD row 0) (b := erased[col]) (by omega) (by
    change erased[col.val] < 256
    omega)
  simp only [gfSize, gfBits]
  omega

theorem DecodeArgs.reduce (h : DecodeArgs sz data fec nos erased) :
    ∃ r, Fec.reduce sz nos 0 data erased (fec.take erased.length) = .ok r ∧
      r.length = erased.length ∧ (∀ x ∈ r, sz ≤ x.length) ∧
      ∀ j < erased.length, ∀ p < sz, blockByte r j p = reducedByte data fec nos erased j p := by
  have hfec : ∀ x ∈ fec.take erased.length, sz ≤ x.length := fun x hx ↦
    h.fec_bytes x (List.mem_of_mem_take hx)
  have hlen : (fec.take erased.length).length = erased.length := by
    rw [List.length_take]
    exact Nat.min_eq_left h.fec_length
  obtain ⟨r, hr, hov⟩ := reduce_spec sz nos
    (fun no hno ↦ (h.nos_lt no hno).trans (by decide)) data 0 erased (fec.take erased.length)
    (by rw [Nat.zero_add]; exact h.data_length) h.sorted (fun e _ ↦ Nat.zero_le e)
    (by rw [hlen, ← h.nos_length]; exact h.fec_length)
    (fun i x hx _ ↦ h.data_bytes x (List.mem_of_getElem? hx)) hfec
  refine ⟨r, hr, hov.length.trans hlen, hov.le_length hfec, fun j hj p hp ↦ ?_⟩
  rw [hov.blockByte (by rw [hlen]; exact hj) hp, reducedByte]
  have htake : blockByte (fec.take erased.length) j p = blockByte fec j p := by
    simp only [blockByte, List.getD_eq_getElem?_getD, List.getElem?_take_of_lt hj]
  simp only [htake, Nat.zero_add]

/-- `fec_decode` inside its bounds: it succeeds, leaves the blocks that were not
erased alone, and computes each erased block from the reduced FEC blocks. -/
theorem fecDecode_spec (h : DecodeArgs sz data fec nos erased) :
    ∃ data', fecDecode sz data fec nos erased = .ok data' ∧
      BlocksOverwrite data sz erased.get (List.finRange erased.length)
        (fun row p ↦ ∑ col : Fin erased.length,
          toGf (resolveInverse nos erased row col) * reducedByte data fec nos erased col p)
            data' := by
  obtain ⟨r, hr, hrlen, hrbytes, hrbyte⟩ := h.reduce
  have hargs : ¬ (fec.length < erased.length ∨ nos.length < erased.length) := by
    have := h.fec_length
    have := h.nos_length
    omega
  have hstep : ∀ (row : Fin erased.length) (x : List UInt8), sz ≤ x.length →
      ∃ y, combine sz x ((List.finRange erased.length).map fun col ↦
          (resolveInverse nos erased row col, r.getD col [])) = .ok y ∧
        Overwrites x sz (fun p ↦ ∑ col : Fin erased.length,
          toGf (resolveInverse nos erased row col) * reducedByte data fec nos erased col p) y := by
    intro row x hx
    obtain ⟨y, hy, hov⟩ := combine_spec sz x
      (l := (List.finRange erased.length).map fun col ↦
        (resolveInverse nos erased row col, r.getD col []))
      (by
        intro hnil
        have hlen := congrArg List.length hnil
        simp only [List.length_map, List.length_finRange, List.length_nil] at hlen
        exact absurd row.isLt (by omega))
      hx (by
        intro cs hcs
        obtain ⟨col, -, rfl⟩ := List.mem_map.mp hcs
        have hcol : col.val < r.length := by rw [hrlen]; exact col.isLt
        rw [List.getD_eq_getElem?_getD, List.getElem?_eq_getElem hcol]
        exact hrbytes _ (List.getElem_mem hcol))
    refine ⟨y, hy, hov.congr fun p hp ↦ ?_⟩
    rw [combination_finRange]
    exact Finset.sum_congr rfl fun col _ ↦ by rw [hrbyte col col.isLt p hp]
  obtain ⟨data', hd', hblocks⟩ := foldlM_rows (fun row ↦ erased[row]) hstep
    (List.finRange erased.length) data (by
      rw [← List.ofFn_eq_map]
      simpa using h.nodup)
    (fun row _ ↦ h.erased_lt _ (List.getElem_mem row.isLt))
    (fun row _ x hx ↦ h.data_bytes x (List.mem_of_getElem? hx))
  refine ⟨data', ?_, hblocks⟩
  rw [fecDecode, if_neg hargs, hr, ok_bind, resolve, if_pos h.matrixInTable]
  exact hd'

end Decode

/-! ## Frame -/

theorem length_combine {sz : ℕ} {target r : List UInt8} {l : List (UInt8 × List UInt8)}
    (h : combine sz target l = .ok r) : r.length = target.length := by
  cases l with
  | nil => rw [← Except.ok.inj h]
  | cons cs l =>
      obtain ⟨t, ht, h⟩ := bind_eq_ok.mp h
      refine foldlM_inv (P := fun t ↦ t.length = target.length) ?_ l (length_mul ht) h
      intro t cs t' hlen hstep
      rw [length_addmul hstep, hlen]

/-- Whatever `fec_decode` is given, if it returns it has changed erased blocks only,
and no block's length. -/
theorem fecDecode_frame {sz : ℕ} {data fec data' : List (List UInt8)} {nos erased : List ℕ}
    (h : fecDecode sz data fec nos erased = .ok data') : data'.length = data.length ∧
      (∀ i, i ∉ erased → data'[i]? = data[i]?) ∧
      ∀ i, (data'.getD i []).length = (data.getD i []).length := by
  rw [fecDecode] at h
  split at h
  case isTrue => exact absurd h (by simp)
  obtain ⟨reduced, -, h⟩ := bind_eq_ok.mp h
  rw [resolve] at h
  split at h
  case isFalse => exact absurd h (by simp)
  refine foldlM_inv (P := fun d : List (List UInt8) ↦ d.length = data.length ∧
    (∀ i, i ∉ erased → d[i]? = data[i]?) ∧ ∀ i, (d.getD i []).length = (data.getD i []).length)
    ?_ _ ⟨rfl, fun _ _ ↦ rfl, fun _ ↦ rfl⟩ h
  rintro d row d' ⟨hlen, hsame, hlens⟩ hstep
  obtain ⟨target, htarget, hstep⟩ := bind_eq_ok.mp hstep
  obtain ⟨t, ht, hstep⟩ := bind_eq_ok.mp hstep
  rw [readAt_eq_ok] at htarget
  rw [← Except.ok.inj hstep]
  refine ⟨by rw [List.length_set, hlen], fun i hi ↦ ?_, fun i ↦ ?_⟩
  · rw [List.getElem?_set_ne, hsame i hi]
    rintro rfl
    exact hi (List.getElem_mem row.isLt)
  · rw [← hlens i]
    by_cases hi : erased[row] = i
    · subst hi
      have hlt : erased[row] < d.length := (List.getElem?_eq_some_iff.mp htarget).1
      rw [List.getD_eq_getElem?_getD, List.getElem?_set_self hlt, List.getD_eq_getElem?_getD,
        htarget]
      exact length_combine ht
    · rw [List.getD_eq_getElem?_getD, List.getElem?_set_ne hi, List.getD_eq_getElem?_getD]

section Recovery

variable {sz : ℕ} {data fec : List (List UInt8)} {nos erased : List ℕ}

/-! ## Recovery -/

theorem ofNat_inj {a b : ℕ} (ha : a < 256) (hb : b < 256) (h : UInt8.ofNat a = UInt8.ofNat b) :
    a = b := by
  have := congrArg UInt8.toNat h
  rwa [UInt8.toNat_ofNat_of_lt' ha, UInt8.toNat_ofNat_of_lt' hb] at this

/-- The matrix of `resolve` is the Cauchy matrix of the points `128 + no` and `e`. -/
theorem toMatrix_resolveMatrix (h : DecodeArgs sz data fec nos erased) :
    toMatrix (resolveMatrix nos erased) = CauchyMatrix.cauchy
      (fun row : Fin erased.length ↦ toGf (UInt8.ofNat (128 ^^^ nos.getD row 0)))
      (fun col : Fin erased.length ↦ toGf (UInt8.ofNat (erased.get col))) := by
  funext row col
  rw [toMatrix, resolveMatrix, add_eq_xor (h.getD_lt row.isLt), UInt8.ofNat_xor]
  rfl

theorem det_resolveMatrix_ne_zero (h : DecodeArgs sz data fec nos erased)
    (hn : data.length ≤ 128) (hnos : nos.Nodup) :
    (toMatrix (resolveMatrix nos erased)).det ≠ 0 := by
  have hlt : ∀ row : Fin erased.length, nos.getD row 0 < 128 := fun row ↦ h.getD_lt row.isLt
  have helt : ∀ col : Fin erased.length, erased[col] < 128 := fun col ↦
    (h.erased_lt _ (List.getElem_mem col.isLt)).trans_le hn
  rw [toMatrix_resolveMatrix h]
  refine CauchyMatrix.det_ne_zero ?_ ?_ ?_
  · intro r r' heq
    have hxor := ofNat_inj (xor_lt_256 (by decide) ((hlt r).trans (by decide)))
      (xor_lt_256 (by decide) ((hlt r').trans (by decide))) (toGf_injective heq)
    have hno : nos.getD r 0 = nos.getD r' 0 := Nat.xor_right_injective hxor
    have hr : r.val < nos.length := by rw [← h.nos_length]; exact r.isLt.trans_le h.fec_length
    have hr' : r'.val < nos.length := by rw [← h.nos_length]; exact r'.isLt.trans_le h.fec_length
    rw [List.getD_eq_getElem?_getD, List.getD_eq_getElem?_getD, List.getElem?_eq_getElem hr,
      List.getElem?_eq_getElem hr', Option.getD_some, Option.getD_some] at hno
    exact Fin.ext ((List.Nodup.getElem_inj_iff hnos).mp hno)
  · intro c c' heq
    have he := ofNat_inj ((helt c).trans (by decide)) ((helt c').trans (by decide))
      (toGf_injective heq)
    exact Fin.ext ((List.Nodup.getElem_inj_iff h.nodup).mp he)
  · -- one point has the top bit, the other has not
    intro r c heq
    have he := ofNat_inj (xor_lt_256 (by decide) ((hlt r).trans (by decide)))
      ((helt c).trans (by decide)) (toGf_injective heq)
    have := add_eq_xor (hlt r)
    have := helt c
    omega

/-- The data words behind byte `p` of the arguments of `fec_decode`: received data blocks
are data words, and FEC block `j` is the code word `nos[j]`. -/
structure EncodesAt (data fec : List (List UInt8)) (nos erased : List ℕ) (p : ℕ)
    (word : ℕ → Gf) : Prop where
  word_eq : ∀ i < data.length, i ∉ erased → blockByte data i p = word i
  code_eq : ∀ j < erased.length,
    blockByte fec j p = ∑ i ∈ Finset.range data.length, coeff (nos.getD j 0) i * word i

section EncodesAt

variable {p : ℕ} {word : ℕ → Gf}

/-- Taking the received blocks out leaves the erased ones. -/
theorem EncodesAt.reducedByte (h : DecodeArgs sz data fec nos erased)
    (hw : EncodesAt data fec nos erased p word) {j : ℕ} (hj : j < erased.length) :
    Fec.reducedByte data fec nos erased j p
      = ∑ col : Fin erased.length, coeff (nos.getD j 0) erased[col] * word erased[col] := by
  have hsum : ∑ col : Fin erased.length, coeff (nos.getD j 0) erased[col] * word erased[col]
      = ∑ i ∈ Finset.range data.length,
          if i ∈ erased then coeff (nos.getD j 0) i * word i else 0 := by
    rw [← Finset.sum_filter]
    refine Finset.sum_bij' (fun col _ ↦ erased[col]) (fun i hi ↦ ⟨erased.idxOf i,
      List.idxOf_lt_length_iff.mpr (Finset.mem_filter.mp hi).2⟩) ?_ ?_ ?_ ?_ ?_
    · intro col _
      refine Finset.mem_filter.mpr ⟨Finset.mem_range.mpr ?_, List.getElem_mem col.isLt⟩
      exact h.erased_lt _ (List.getElem_mem col.isLt)
    · intro i _
      exact Finset.mem_univ _
    · intro col _
      exact Fin.ext (List.Nodup.idxOf_getElem h.nodup col.val col.isLt)
    · intro i hi
      exact List.getElem_idxOf (List.idxOf_lt_length_iff.mpr (Finset.mem_filter.mp hi).2)
    · intro col _
      rfl
  rw [Fec.reducedByte, hw.code_eq j hj, hsum, ← Finset.sum_add_distrib]
  refine Finset.sum_congr rfl fun i hi ↦ ?_
  by_cases hie : i ∈ erased
  · rw [if_pos hie, if_pos hie, add_zero]
  · rw [if_neg hie, if_neg hie, hw.word_eq i (Finset.mem_range.mp hi) hie]
    exact add_self _

/-- The inverse of the matrix takes the reduced FEC blocks to the data words. -/
theorem EncodesAt.resolved (h : DecodeArgs sz data fec nos erased)
    (hdet : (toMatrix (resolveMatrix nos erased)).det ≠ 0)
    (hw : EncodesAt data fec nos erased p word) (row : Fin erased.length) :
    ∑ col : Fin erased.length,
      toGf (resolveInverse nos erased row col) * Fec.reducedByte data fec nos erased col p
        = word (erased.get row) := by
  obtain ⟨-, hinv⟩ := invertMat_spec hdet
  have hcoeff : ∀ j c : Fin erased.length,
      coeff (nos.getD j 0) erased[c] = toMatrix (resolveMatrix nos erased) j c := by
    intro j c
    rw [toMatrix, resolveMatrix, add_eq_xor (h.getD_lt j.isLt), coeff]
  calc ∑ col : Fin erased.length,
        toGf (resolveInverse nos erased row col) * Fec.reducedByte data fec nos erased col p
      = ∑ col : Fin erased.length, toMatrix (resolveInverse nos erased) row col *
          (toMatrix (resolveMatrix nos erased)).mulVec (fun c ↦ word erased[c]) col := by
        refine Finset.sum_congr rfl fun col _ ↦ ?_
        rw [hw.reducedByte h col.isLt]
        exact congrArg _ (Finset.sum_congr rfl fun c _ ↦ by rw [hcoeff])
    _ = (toMatrix (resolveInverse nos erased) * toMatrix (resolveMatrix nos erased)).mulVec
          (fun c ↦ word erased[c]) row := by
        rw [← Matrix.mulVec_mulVec]
        rfl
    _ = word erased[row] := by
        rw [resolveInverse, hinv, Matrix.one_mulVec]

end EncodesAt

/-- Erasure recovery: the inversion succeeds, and every erased block becomes the
data word it was. -/
theorem fecDecode_recovers {word : ℕ → ℕ → Gf} (h : DecodeArgs sz data fec nos erased)
    (hn : data.length ≤ 128) (hnos : nos.Nodup)
    (hw : ∀ p < sz, EncodesAt data fec nos erased p fun i ↦ word i p) :
    (invertMat (resolveMatrix nos erased)).2 = false ∧
      ∃ data', fecDecode sz data fec nos erased = .ok data' ∧
        BlocksOverwrite data sz (fun row : Fin erased.length ↦ erased[row])
          (List.finRange erased.length) (fun row p ↦ word erased[row] p) data' := by
  have hdet := det_resolveMatrix_ne_zero h hn hnos
  obtain ⟨data', hd', hblocks⟩ := fecDecode_spec h
  refine ⟨(invertMat_spec hdet).1, data', hd', hblocks.length, hblocks.same,
    fun row hrow x y hx hy ↦ ?_⟩
  exact (hblocks.row row hrow x y hx hy).congr fun p hp ↦ (hw p hp).resolved h hdet row

end Recovery

/-! ## The code as a whole -/

/-- What a receiver may hold of `data`: the blocks that are not erased,
and anything in the buffers of those that are. -/
structure Received (sz : ℕ) (data : List (List UInt8)) (erased : List ℕ)
    (received : List (List UInt8)) :
    Prop where
  length : received.length = data.length
  bytes : ∀ x ∈ received, sz ≤ x.length
  same : ∀ i, i ∉ erased → received[i]? = data[i]?

section Code

variable {sz : ℕ} {data fec code received : List (List UInt8)} {nos erased : List ℕ}

/-- The FEC blocks that arrive are code words of the data. -/
theorem Received.encodesAt (h : Received sz data erased received)
    (hcode : RowsOverwrite fec sz
      (fun row p ↦ ∑ i ∈ Finset.range data.length, coeff row i * blockByte data i p) code)
    (hnos : ∀ no ∈ nos, no < fec.length) (henough : erased.length ≤ nos.length) {p : ℕ}
    (hp : p < sz) :
    EncodesAt received (nos.map fun no ↦ code.getD no []) nos erased p fun i ↦
      blockByte data i p := by
  refine ⟨fun i _ hi ↦ ?_, fun j hj ↦ ?_⟩
  · rw [blockByte, blockByte, List.getD_eq_getElem?_getD, List.getD_eq_getElem?_getD, h.same i hi]
  · have hj' : j < nos.length := hj.trans_le henough
    have hmap : blockByte (nos.map fun no ↦ code.getD no []) j p = blockByte code nos[j] p := by
      rw [blockByte, List.getD_eq_getElem?_getD, List.getElem?_map, List.getElem?_eq_getElem hj']
      rfl
    have hget : nos.getD j 0 = nos[j] := by
      rw [List.getD_eq_getElem?_getD, List.getElem?_eq_getElem hj', Option.getD_some]
    rw [hmap, hget, h.length, hcode.blockByte (hnos _ (List.getElem_mem hj')) hp]

theorem take_eq_of_byteAt {x y : List UInt8} (hx : sz ≤ x.length) (hy : sz ≤ y.length)
    (h : ∀ p < sz, byteAt x p = byteAt y p) : x.take sz = y.take sz := by
  refine List.ext_getElem (by rw [List.length_take_of_le hx, List.length_take_of_le hy])
    fun p hp hp' ↦ ?_
  rw [List.length_take_of_le hx] at hp
  have hbyte := h p hp
  rw [byteAt_of_getElem? (List.getElem?_eq_getElem (hp.trans_le hx)),
    byteAt_of_getElem? (List.getElem?_eq_getElem (hp.trans_le hy)), toGf_inj] at hbyte
  rw [List.getElem_take, List.getElem_take, hbyte]

/-- `fec_decode` undoes every loss: from the code words `fec_encode` made, any of them, as many as
blocks were erased, it restores all blocks, whatever their buffers held. -/
theorem fecDecode_fecEncode (sz : ℕ) (data fec : List (List UInt8)) (hne : data ≠ [])
    (hn : data.length ≤ 128) (hf : fec.length ≤ 128) (hdata : ∀ x ∈ data, sz ≤ x.length)
    (hfec : ∀ x ∈ fec, sz ≤ x.length) :
    ∃ code, fecEncode sz data fec = .ok code ∧
      ∀ {erased nos : List ℕ} {received : List (List UInt8)}, Received sz data erased received →
        erased.Pairwise (· < ·) → (∀ e ∈ erased, e < data.length) →
        nos.Nodup → (∀ no ∈ nos, no < fec.length) → erased.length ≤ nos.length →
        ∃ data', fecDecode sz received (nos.map fun no ↦ code.getD no []) nos erased = .ok data' ∧
          data'.map (List.take sz) = data.map (List.take sz) := by
  obtain ⟨code, hencode, hcode⟩ := fecEncode_spec sz data fec hne hn (by omega) hdata hfec
  refine ⟨code, hencode, fun {erased nos received} hrec hsorted herased hnodup hnos henough ↦ ?_⟩
  have hcodeBytes := hcode.le_length hfec
  have hargs : DecodeArgs sz received (nos.map fun no ↦ code.getD no []) nos erased := by
    refine ⟨by rwa [List.length_map], List.length_map _, fun no hno ↦ (hnos no hno).trans_le hf,
      by rw [hrec.length]; omega, hsorted, fun e he ↦ by rw [hrec.length]; exact herased e he,
      hrec.bytes, ?_⟩
    intro x hx
    obtain ⟨no, hno, rfl⟩ := List.mem_map.mp hx
    have hlt : no < code.length := by rw [hcode.length]; exact hnos no hno
    rw [List.getD_eq_getElem?_getD, List.getElem?_eq_getElem hlt]
    exact hcodeBytes _ (List.getElem_mem hlt)
  obtain ⟨-, data', hdecode, hblocks⟩ :=
    fecDecode_recovers hargs (by rw [hrec.length]; exact hn) hnodup
      fun p hp ↦ hrec.encodesAt hcode hnos henough hp
  refine ⟨data', hdecode, List.ext_getElem? fun i ↦ ?_⟩
  rw [List.getElem?_map, List.getElem?_map]
  by_cases hi : i ∈ erased
  · -- the block was erased
    obtain ⟨row, hrow, rfl⟩ := List.mem_iff_getElem.mp hi
    have hlt := herased _ hi
    have hlt' : erased[row] < received.length := by rw [hrec.length]; exact hlt
    have hlt'' : erased[row] < data'.length := by rw [hblocks.length]; exact hlt'
    have hov := hblocks.row ⟨row, hrow⟩ (List.mem_finRange _) _ _ (List.getElem?_eq_getElem hlt')
      (List.getElem?_eq_getElem hlt'')
    have hlength : sz ≤ data'[erased[row]].length := by
      rw [hov.length]
      exact hrec.bytes _ (List.getElem_mem hlt')
    rw [List.getElem?_eq_getElem hlt, List.getElem?_eq_getElem hlt'', Option.map_some,
      Option.map_some, take_eq_of_byteAt hlength (hdata _ (List.getElem_mem hlt)) fun p hp ↦ ?_]
    exact (hov.at_lt p hp).trans (blockByte_of_getElem? (List.getElem?_eq_getElem hlt) p)
  · have hnot : i ∉ (List.finRange erased.length).map fun row ↦ erased[row] := by
      intro hmem
      obtain ⟨row, -, rfl⟩ := List.mem_map.mp hmem
      exact hi (List.getElem_mem row.isLt)
    rw [hblocks.same i hnot, hrec.same i hi]

end Code

/-- Two of three blocks are lost, and the FEC blocks come in the other order. -/
theorem fecDecode_fecEncode_two_of_three :
    ∃ code, fecEncode 2 [[1, 2], [3, 4], [5, 6]] [[0, 0], [0, 0]] = .ok code ∧
      ∃ data',
        fecDecode 2 [[9, 9], [3, 4], [7, 7]] ([1, 0].map fun no ↦ code.getD no []) [1, 0] [0, 2] =
          .ok data' ∧ data'.map (List.take 2) = [[1, 2], [3, 4], [5, 6]] := by
  obtain ⟨code, hcode, h⟩ := fecDecode_fecEncode 2 [[1, 2], [3, 4], [5, 6]] [[0, 0], [0, 0]]
    (by decide) (by decide) (by decide) (by decide) (by decide)
  refine ⟨code, hcode,
    h ⟨rfl, by decide, fun i hi ↦ ?_⟩ (by decide) (by decide) (by decide) (by decide)
    (by decide)⟩
  obtain _ | _ | _ | i := i
  · exact absurd List.mem_cons_self hi
  · rfl
  · exact absurd (by decide) hi
  · rfl

end WfbBridge.Fec
