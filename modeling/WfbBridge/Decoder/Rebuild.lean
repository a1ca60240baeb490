import Mathlib
import WfbBridge.Decoder.Phase
import WfbBridge.Fec.Recover

/-!
# `decode` on the blocks of a sequence

`rebuild_frame` describes what `decode` releases for data blocks of a sequence and
any FEC blocks, of the sequence or not.  `rebuild_recovers` is the case of FEC
blocks of the sequence: then a rebuilt block is the word of its message, cut at
`m_block_size`.
-/

namespace WfbBridge

open Checked Fec Gf

namespace Sequence

variable {q : Sequence} {I : List ℕ} {G : List FECBlock}

variable (q I) in
/-- The data blocks that are missing. -/
def erased : List ℕ := (List.range q.nBlocks).filter (· ∉ I)

variable (q I G) in
/-- When `decode` is called: some data blocks,
and FEC blocks in the place of the others. -/
structure Enough : Prop where
  ne : I ≠ []
  sorted : I.Pairwise (· < ·)
  lt : ∀ i ∈ I, i < q.nBlocks
  count : I.length + G.length = q.nBlocks
  fec_ne : G ≠ []

theorem mem_erased {i : ℕ} : i ∈ q.erased I ↔ i < q.nBlocks ∧ i ∉ I := by
  simp [erased]

theorem sorted_erased : (q.erased I).Pairwise (· < ·) := List.pairwise_lt_range.filter _

theorem length_erased (hsorted : I.Pairwise (· < ·)) (hlt : ∀ i ∈ I, i < q.nBlocks) :
    (q.erased I).length + I.length = q.nBlocks := by
  have hperm : ((List.range q.nBlocks).filter (· ∈ I)).Perm I := by
    refine (List.perm_ext_iff_of_nodup (List.nodup_range.filter _)
      (hsorted.imp fun h ↦ Nat.ne_of_lt h)).mpr fun i ↦ ?_
    simp only [List.mem_filter, List.mem_range, decide_eq_true_eq]
    exact ⟨fun h ↦ h.2, fun h ↦ ⟨hlt i h, h⟩⟩
  have hsplit :=
    List.length_eq_length_filter_add (l := List.range q.nBlocks) (fun i ↦ decide (i ∈ I))
  rw [List.length_range, hperm.length_eq] at hsplit
  rw [hsplit, erased, Nat.add_comm]
  congr 2
  exact List.filter_congr fun i _ ↦ by simp

theorem Enough.length_erased (h : q.Enough I G) : (q.erased I).length = G.length := by
  have := Sequence.length_erased h.sorted h.lt
  have := h.count
  omega

theorem Enough.exists_erased (h : q.Enough I G) : ∃ first rest, q.erased I = first :: rest := by
  refine List.exists_cons_of_ne_nil fun hnil ↦ h.fec_ne ?_
  rw [← List.length_eq_zero_iff, ← h.length_erased, hnil, List.length_nil]

theorem head_erased {first : ℕ} (h : (q.erased I).head? = some first) :
    first < q.nBlocks ∧ first ∉ I ∧ ∀ i < first, i ∈ I := by
  obtain ⟨rest, hrest⟩ := List.head?_eq_some_iff.mp h
  have hmem : first ∈ q.erased I := by rw [hrest]; exact List.mem_cons_self
  obtain ⟨hlt, hnot⟩ := mem_erased.mp hmem
  refine ⟨hlt, hnot, fun i hi ↦ ?_⟩
  by_contra hiI
  have hi' : i ∈ q.erased I := mem_erased.mpr ⟨by omega, hiI⟩
  have hs := sorted_erased (q := q) (I := I)
  rw [hrest] at hi' hs
  rcases List.mem_cons.mp hi' with rfl | hi'
  · exact absurd hi (lt_irrefl i)
  · have := (List.pairwise_cons.mp hs).1 i hi'
    omega

/-! ## The slots -/

theorem foldl_set_block (hlt : ∀ i ∈ I, i < q.nBlocks) (v : List (Option FECBlock)) (j : ℕ)
    (hj : j < v.length) :
    ((I.map q.block).foldl (fun v b ↦ v.set b.header.block (some b)) v)[j]? =
      if j ∈ I then some (some (q.block j)) else v[j]? := by
  induction I generalizing v with
  | nil => rfl
  | cons i I ih =>
      have hi : i < q.nBlocks := hlt i List.mem_cons_self
      have hb : (q.block i).header.block = i :=
        (header_block (Nat.lt_add_right q.nFecBlocks hi)).2.1
      rw [List.map_cons, List.foldl_cons, ih (fun i hi ↦ hlt i (List.mem_cons_of_mem _ hi)) _
        (by rwa [List.length_set]), hb]
      by_cases hjI : j ∈ I
      · rw [if_pos hjI, if_pos (List.mem_cons_of_mem _ hjI)]
      · rw [if_neg hjI]
        by_cases hji : j = i
        · subst hji
          rw [List.getElem?_set_self hj, if_pos List.mem_cons_self]
        · rw [List.getElem?_set_ne (Ne.symm hji), if_neg (by simp [hji, hjI])]

theorem slots_eq {d : FECDecoder} (hd : d.blocks = I.map q.block) (hlt : ∀ i ∈ I, i < q.nBlocks) :
    d.slots q.nBlocks =
      (List.range q.nBlocks).map fun i ↦ if i ∈ I then some (q.block i) else none := by
  have hlen : ∀ (l : List FECBlock) (v : List (Option FECBlock)),
      (l.foldl (fun v b ↦ v.set b.header.block (some b)) v).length = v.length := by
    intro l
    induction l with
    | nil => intro v; rfl
    | cons b l ih => intro v; rw [List.foldl_cons, ih, List.length_set]
  rw [FECDecoder.slots, hd]
  refine List.ext_getElem? fun j ↦ ?_
  by_cases hj : j < q.nBlocks
  · rw [foldl_set_block hlt _ j (by simpa using hj)]
    simp only [List.getElem?_replicate, if_pos hj, List.getElem?_map, List.getElem?_range hj,
      Option.map_some]
    split <;> rfl
  · rw [List.getElem?_eq_none (by rw [hlen]; simpa using hj),
      List.getElem?_eq_none (by simpa using hj)]

theorem erasedIdxs_slots : FECDecoder.erasedIdxs
    ((List.range q.nBlocks).map fun i ↦ if i ∈ I then some (q.block i) else none) = q.erased I := by
  rw [FECDecoder.erasedIdxs, List.length_map, List.length_range, erased]
  refine List.filter_congr fun i hi ↦ ?_
  rw [List.getElem?_map, List.getElem?_range (List.mem_range.mp hi)]
  by_cases h : i ∈ I <;> simp [h]

/-! ## The call of `fec_decode` -/

/-- `fec_data()` of a block `decode` allocates for an erased one. -/
def blankData (sz : ℕ) : List UInt8 :=
  lengthBytes (u16 (sz + 65536 - 2)) ++ List.replicate (sz - 2) 0

theorem length_blankData {sz : ℕ} (h2 : 2 ≤ sz) : (blankData sz).length = sz := by
  rw [blankData, List.length_append, length_lengthBytes, List.length_replicate]
  omega

theorem ofHeader_block {i sz : ℕ} (hi : i < q.nBlocks) (h2 : 2 ≤ sz) (hle : sz ≤ 65531) :
    ∃ b, FECBlock.ofHeader (q.block i).header sz = .ok b ∧ b.data = q.tag i ++ blankData sz := by
  have hsize : u16 (sz + fecOverhead - 2) = sz + 4 := by
    simp only [fecOverhead]
    exact u16_of_lt (by omega)
  obtain ⟨hs, hb, hn, hf⟩ := header_block (Nat.lt_add_right q.nFecBlocks hi)
  rw [FECBlock.ofHeader, hsize, FECBlock.zeroed, dif_pos (by simp only [fecOverhead]; omega)]
  refine ⟨_, rfl, ?_⟩
  have hpad : sz + 4 - fecOverhead = sz - 2 := by
    simp only [fecOverhead]
    omega
  simp only [FECHeader.bytes, hs, hb, hn, hf, hpad]
  rfl

variable (q I) in
/-- The data blocks `fec_decode` gets. -/
def received : List (List UInt8) :=
  (List.range q.nBlocks).map fun i ↦ if i ∈ I then q.body i else blankData (q.heldSize I)

/-- FEC blocks that are safe to decode with: their numbers are in the range of the
code, and they have `m_block_size` bytes. -/
def LongEnough (sz : ℕ) (G : List FECBlock) : Prop :=
  ∀ b ∈ G, b.fecIdx < 128 ∧ sz ≤ b.fecData.length

theorem Enough.decodeArgs (h : q.Enough I G) (hG : LongEnough (q.heldSize I) G) :
    DecodeArgs (q.heldSize I) (q.received I) (G.map FECBlock.fecData) (G.map FECBlock.fecIdx)
      (q.erased I) where
  fec_length := by rw [List.length_map, h.length_erased]
  nos_length := by rw [List.length_map, List.length_map]
  nos_lt := by
    intro no hno
    obtain ⟨b, hb, rfl⟩ := List.mem_map.mp hno
    exact (hG b hb).1
  data_length := by
    have : q.nBlocks ≤ 128 := q.msgs_le
    rw [received, List.length_map, List.length_range]
    omega
  sorted := sorted_erased
  erased_lt := by
    intro e he
    rw [received, List.length_map, List.length_range]
    exact (mem_erased.mp he).1
  data_bytes := by
    intro x hx
    obtain ⟨i, -, rfl⟩ := List.mem_map.mp hx
    split
    · rw [length_body]
      exact q.heldSize_le I
    · exact (length_blankData (two_le_heldSize h.ne)).ge
  fec_bytes := by
    intro x hx
    obtain ⟨b, hb, rfl⟩ := List.mem_map.mp hx
    exact (hG b hb).2

variable (q I) in
/-- The blocks before the call, with `blank` in the place of the missing ones. -/
def filled (blank : FECBlock) (i : ℕ) : FECBlock := if i ∈ I then q.block i else blank

theorem Enough.map_fecData_filled {blank : FECBlock}
    (hblank : blank.fecData = blankData (q.heldSize I)) :
    ((List.range q.nBlocks).map (q.filled I blank)).map FECBlock.fecData = q.received I := by
  rw [List.map_map, received]
  refine List.map_congr_left fun i _ ↦ ?_
  by_cases hi : i ∈ I <;> simp [filled, hi, hblank]

/-- `decode` up to the call of `fec_decode`. -/
theorem Enough.decodeBlocks_eq (h : q.Enough I G) :
    ∃ (blank : FECBlock) (i₀ first : ℕ), i₀ ∈ I ∧ (I.map q.block).head? = some (q.block i₀) ∧
      (q.erased I).head? = some first ∧ blank.data = q.tag i₀ ++ blankData (q.heldSize I) ∧
      FECDecoder.decodeBlocks { blockSize := q.heldSize I, blocks := I.map q.block, fecBlocks := G }
        (q.block i₀).header = (do
          let bytes ← fecDecode (q.heldSize I) (q.received I) (G.map FECBlock.fecData)
            (G.map FECBlock.fecIdx) (q.erased I)
          .ok (first, List.zipWith (fun b bytes ↦ b.write (fecOverhead - 2) bytes)
            ((List.range q.nBlocks).map (q.filled I blank)) bytes)) := by
  obtain ⟨i₀, I', hI⟩ := List.exists_cons_of_ne_nil h.ne
  have hmem : i₀ ∈ I := by rw [hI]; exact List.mem_cons_self
  have hi₀ : i₀ < q.nBlocks := h.lt i₀ hmem
  obtain ⟨first, rest, herased⟩ := h.exists_erased
  obtain ⟨blank, hblank, hblankData⟩ := ofHeader_block (q := q) hi₀ (two_le_heldSize h.ne)
    ((q.heldSize_le I).trans q.size_le)
  have hfecData : blank.fecData = blankData (q.heldSize I) := by
    rw [FECBlock.fecData, hblankData]
    rfl
  have hfilled : ((List.range q.nBlocks).map fun i ↦ if i ∈ I then some (q.block i) else none).map
      (fun b ↦ b.getD blank) = (List.range q.nBlocks).map (q.filled I blank) := by
    rw [List.map_map]
    refine List.map_congr_left fun i _ ↦ ?_
    by_cases hi : i ∈ I <;> simp [filled, hi]
  have hindex : ¬ ∃ b ∈ I.map q.block, q.nBlocks ≤ b.header.block := by
    rintro ⟨b, hb, hle⟩
    obtain ⟨i, hi, rfl⟩ := List.mem_map.mp hb
    have hlt := h.lt i hi
    rw [(header_block (Nat.lt_add_right q.nFecBlocks hlt)).2.1] at hle
    omega
  obtain ⟨-, -, hn, -⟩ := header_block (Nat.lt_add_right q.nFecBlocks hi₀)
  refine ⟨blank, i₀, first, hmem, by rw [hI]; rfl, by rw [herased, List.head?_cons], hblankData, ?_⟩
  rw [FECDecoder.decodeBlocks, hn, if_neg hindex, slots_eq rfl h.lt]
  simp only [erasedIdxs_slots, herased, hblank, ok_bind, hfilled,
    Enough.map_fecData_filled hfecData, FECDecoder.fecIdxs]

variable (q I) in
/-- The blocks from `first` on that have a reasonable length. -/
def releaseFrom (first : ℕ) (rb : ℕ → FECBlock) : List (FECBlock × ℕ) :=
  ((List.range' first (q.nBlocks - first)).filter fun i ↦ (rb i).length ≤ q.heldSize I).map
    fun i ↦ (rb i, i)

theorem drop_zipIdx_map_range {α : Type*} (f : ℕ → α) (n k : ℕ) :
    ((List.range n).map f).zipIdx.drop k = (List.range' k (n - k)).map fun i ↦ (f i, i) := by
  refine List.ext_getElem (by simp) fun i hi hi' ↦ ?_
  simp

/-- `decode` as a whole, around the call of `fec_decode`. -/
theorem Enough.rebuild_eq_bind (h : q.Enough I G) :
    ∃ (blank : FECBlock) (i₀ first : ℕ), i₀ ∈ I ∧ (q.erased I).head? = some first ∧
      blank.data = q.tag i₀ ++ blankData (q.heldSize I) ∧
      q.rebuild I G = (do
        let bytes ← fecDecode (q.heldSize I) (q.received I) (G.map FECBlock.fecData)
          (G.map FECBlock.fecIdx) (q.erased I)
        .ok (((List.zipWith (fun b bytes ↦ b.write (fecOverhead - 2) bytes)
          ((List.range q.nBlocks).map (q.filled I blank)) bytes).zipIdx.drop first).filter
            fun bi ↦ bi.1.length ≤ q.heldSize I)) := by
  obtain ⟨blank, i₀, first, hi₀, hhead, hfirst, hblank, hblocks⟩ := h.decodeBlocks_eq
  obtain ⟨b, bl, hbl⟩ := List.exists_cons_of_ne_nil (l := I.map q.block) (by simpa using h.ne)
  obtain rfl : b = q.block i₀ := by
    rw [hbl, List.head?_cons] at hhead
    exact Option.some.inj hhead
  obtain ⟨-, -, hn, hf⟩ := header_block (Nat.lt_add_right q.nFecBlocks (h.lt i₀ hi₀))
  have hpos := q.nBlocks_pos
  have hfpos := q.nFecBlocks_pos
  have hcount : (I.map q.block).length + G.length = q.nBlocks := by
    rw [List.length_map]
    exact h.count
  refine ⟨blank, i₀, first, hi₀, hfirst, hblank, ?_⟩
  rw [rebuild, FECDecoder.released]
  simp only [hbl] at hcount hblocks ⊢
  rw [hn, hf, if_neg (by omega), if_neg (by omega), hblocks, bind_assoc]
  rfl

/-- If `fec_decode` returns, the received blocks are released as they are, and a rebuilt
one is its part of what was returned. -/
theorem Enough.rebuild_eq (h : q.Enough I G) {bytes : List (List UInt8)}
    (hdec : fecDecode (q.heldSize I) (q.received I) (G.map FECBlock.fecData)
      (G.map FECBlock.fecIdx) (q.erased I) = .ok bytes) :
    ∃ (rb : ℕ → FECBlock) (i₀ first : ℕ), i₀ ∈ I ∧ (q.erased I).head? = some first ∧
      q.rebuild I G = .ok (q.releaseFrom I first rb) ∧ (∀ i ∈ I, rb i = q.block i) ∧
      ∀ i ∈ q.erased I, (rb i).data = q.tag i₀ ++ bytes.getD i [] ∧
        (bytes.getD i []).length = q.heldSize I := by
  obtain ⟨blank, i₀, first, hi₀, hfirst, hblank, hrebuild⟩ := h.rebuild_eq_bind
  obtain ⟨hlen, hsame, hlens⟩ := fecDecode_frame hdec
  have hreceived : ∀ i < q.nBlocks, (q.received I)[i]? =
      some (if i ∈ I then q.body i else blankData (q.heldSize I)) := fun i hi ↦ by
    rw [received, List.getElem?_map, List.getElem?_range hi, Option.map_some]
  have hrow : ∀ i ∈ q.erased I, (bytes.getD i []).length = q.heldSize I := by
    intro i hi
    obtain ⟨hlt, hnot⟩ := mem_erased.mp hi
    rw [hlens i, List.getD_eq_getElem?_getD, hreceived i hlt, if_neg hnot, Option.getD_some,
      length_blankData (two_le_heldSize h.ne)]
  have hbytes : ∀ i ∈ I, bytes.getD i [] = (q.block i).fecData := by
    intro i hi
    rw [List.getD_eq_getElem?_getD, hsame i fun he ↦ (mem_erased.mp he).2 hi,
      hreceived i (h.lt i hi), if_pos hi]
    rfl
  have hzip : List.zipWith (fun b bytes ↦ b.write (fecOverhead - 2) bytes)
      ((List.range q.nBlocks).map (q.filled I blank)) bytes =
        (List.range q.nBlocks).map fun i ↦ (q.filled I blank i).write (fecOverhead - 2)
          (bytes.getD i []) := by
    have hlen' : bytes.length = q.nBlocks := by rw [hlen, received]; simp
    refine List.ext_getElem (by simp [hlen']) fun i hi hi' ↦ ?_
    have hi'' : i < bytes.length := by
      rw [List.length_zipWith] at hi
      omega
    simp [List.getElem?_eq_getElem hi'']
  refine ⟨fun i ↦ (q.filled I blank i).write (fecOverhead - 2) (bytes.getD i []), i₀, first, hi₀,
    hfirst, ?_, fun i hi ↦ ?_, fun i hi ↦ ⟨?_, hrow i hi⟩⟩
  · rw [hrebuild, hdec, ok_bind, hzip]
    simp only [drop_zipIdx_map_range, List.filter_map, releaseFrom]
    rfl
  · simp only [filled, if_pos hi, hbytes i hi]
    exact FECBlock.write_fecData _
  · have hdrop : blank.data.drop (fecOverhead - 2 + (bytes.getD i []).length) = [] := by
      refine List.drop_eq_nil_of_le ?_
      rw [hrow i hi, hblank, List.length_append, length_tag,
        length_blankData (two_le_heldSize h.ne)]
      simp only [fecOverhead]
      omega
    simp only [filled, if_neg (mem_erased.mp hi).2]
    rw [FECBlock.data_write, hdrop, List.append_nil, hblank]
    rfl

/-- Whatever FEC blocks `decode` is given, what it releases starts at the first erased
block; the received blocks are unchanged, and a rebuilt one is as long as
`m_block_size` says. -/
theorem Enough.rebuild_frame (h : q.Enough I G) {out : List (FECBlock × ℕ)}
    (hout : q.rebuild I G = .ok out) :
    ∃ (rb : ℕ → FECBlock) (i₀ first : ℕ), i₀ ∈ I ∧ (q.erased I).head? = some first ∧
      out = q.releaseFrom I first rb ∧ (∀ i ∈ I, rb i = q.block i) ∧
      ∀ i ∈ q.erased I, ∃ x, (rb i).data = q.tag i₀ ++ x ∧ x.length = q.heldSize I := by
  obtain ⟨blank, _, _, -, -, -, hbind⟩ := h.rebuild_eq_bind
  rw [hbind] at hout
  obtain ⟨bytes, hdec, -⟩ := bind_eq_ok.mp hout
  obtain ⟨rb, i₀, first, hi₀, hfirst, hrebuild, hrb, hdata⟩ := h.rebuild_eq hdec
  rw [← hbind, hrebuild] at hout
  exact ⟨rb, i₀, first, hi₀, hfirst, (Except.ok.inj hout).symm, hrb, fun i hi ↦ ⟨_, hdata i hi⟩⟩

/-- With FEC blocks that are long enough, `decode` succeeds. -/
theorem Enough.rebuild_ok (h : q.Enough I G) (hG : LongEnough (q.heldSize I) G) :
    ∃ out, q.rebuild I G = .ok out := by
  obtain ⟨bytes, hdec, -⟩ := fecDecode_spec (h.decodeArgs hG)
  obtain ⟨rb, _, first, -, -, hrebuild, -⟩ := h.rebuild_eq hdec
  exact ⟨_, hrebuild⟩

theorem exists_row {i : ℕ} (hi : i ∈ q.erased I) : ∃ row : Fin (q.erased I).length,
    (q.erased I)[row] = i := by
  obtain ⟨row, hrow, rfl⟩ := List.mem_iff_getElem.mp hi
  exact ⟨⟨row, hrow⟩, rfl⟩

/-! ## FEC blocks of the sequence -/

variable {R : List ℕ}

variable (q R) in
/-- Numbers of different FEC packets of the sequence. -/
structure FecPackets : Prop where
  nodup : R.Nodup
  le : ∀ r ∈ R, q.nBlocks ≤ r
  lt : ∀ r ∈ R, r < q.nPackets

theorem fecIdx_block {r : ℕ} (hle : q.nBlocks ≤ r) (hlt : r < q.nPackets) :
    (q.block r).fecIdx = r - q.nBlocks := by
  obtain ⟨-, hb, hn, -⟩ := header_block hlt
  have := q.nFecBlocks_le
  simp only [nPackets] at hlt
  rw [FECBlock.fecIdx, hb, hn, u8]
  omega

theorem FecPackets.longEnough (hR : q.FecPackets R) (I : List ℕ) :
    LongEnough (q.heldSize I) (R.map q.block) := by
  intro b hb
  obtain ⟨r, hr, rfl⟩ := List.mem_map.mp hb
  have hlt := hR.lt r hr
  have hle := hR.le r hr
  have := q.nFecBlocks_le
  simp only [nPackets] at hlt
  rw [fecIdx_block hle (hR.lt r hr), fecData_block, length_body]
  exact ⟨by omega, q.heldSize_le I⟩

theorem FecPackets.map_fecIdx (hR : q.FecPackets R) :
    (R.map q.block).map FECBlock.fecIdx = R.map (· - q.nBlocks) := by
  rw [List.map_map]
  exact List.map_congr_left fun r hr ↦ fecIdx_block (hR.le r hr) (hR.lt r hr)

theorem FecPackets.nodup_fecIdx (hR : q.FecPackets R) :
    ((R.map q.block).map FECBlock.fecIdx).Nodup := by
  rw [hR.map_fecIdx]
  refine (List.nodup_map_iff_inj_on hR.nodup).mpr fun r hr r' hr' heq ↦ ?_
  have := hR.le r hr
  have := hR.le r' hr'
  omega

/-- What `fec_decode` gets are code words of the messages. -/
theorem Enough.encodesAt (h : q.Enough I (R.map q.block)) (hR : q.FecPackets R) {p : ℕ}
    (hp : p < q.heldSize I) :
    EncodesAt (q.received I) ((R.map q.block).map FECBlock.fecData)
      ((R.map q.block).map FECBlock.fecIdx) (q.erased I) p
      (fun i ↦ byteAt (word q.size (q.msg i)) p) where
  word_eq := by
    intro i hi hne
    rw [received, List.length_map, List.length_range] at hi
    have hiI : i ∈ I := by
      by_contra hnot
      exact hne (mem_erased.mpr ⟨hi, hnot⟩)
    rw [blockByte_of_getElem? (b := q.body i)
      (by rw [received, List.getElem?_map, List.getElem?_range hi, Option.map_some, if_pos hiI]),
      body, if_pos hi]
  code_eq := by
    intro j hj
    have hjR : j < R.length := by simpa [h.length_erased] using hj
    have hr : R[j] ∈ R := List.getElem_mem hjR
    rw [blockByte_of_getElem? (b := q.body R[j]) (by simp [List.getElem?_eq_getElem hjR]), body,
      if_neg (Nat.not_lt.mpr (hR.le _ hr)), byteAt_parity (hp.trans_le (q.heldSize_le I)), code,
      hR.map_fecIdx, received, List.length_map, List.length_range]
    simp [List.getElem?_eq_getElem hjR]

/-- `decode` with FEC blocks of the sequence: the matrix is inverted, and a rebuilt
block is the word of its message up to `m_block_size`. -/
theorem Enough.rebuild_recovers (h : q.Enough I (R.map q.block)) (hR : q.FecPackets R) :
    (invertMat (resolveMatrix ((R.map q.block).map FECBlock.fecIdx) (q.erased I))).2 = false ∧
    ∃ (rb : ℕ → FECBlock) (i₀ first : ℕ), i₀ ∈ I ∧ (q.erased I).head? = some first ∧
      q.rebuild I (R.map q.block) = .ok (q.releaseFrom I first rb) ∧
      (∀ i ∈ I, rb i = q.block i) ∧
      ∀ i ∈ q.erased I, (rb i).data = q.tag i₀ ++ (word q.size (q.msg i)).take (q.heldSize I) := by
  have hdata : (q.received I).length ≤ 128 := by
    rw [received, List.length_map, List.length_range]
    exact q.msgs_le
  obtain ⟨hinv, bytes, hdec, hb⟩ := fecDecode_recovers (h.decodeArgs (hR.longEnough I)) hdata
    hR.nodup_fecIdx (fun p hp ↦ h.encodesAt hR hp)
  refine ⟨hinv, ?_⟩
  obtain ⟨rb, i₀, first, hi₀, hfirst, hrebuild, hrb, hdata⟩ := h.rebuild_eq hdec
  refine ⟨rb, i₀, first, hi₀, hfirst, hrebuild, hrb, fun i hi ↦ ?_⟩
  obtain ⟨hi', hlen⟩ := hdata i hi
  rw [hi']
  congr 1
  refine ext_byteAt ?_ fun p hp ↦ ?_
  · rw [hlen, List.length_take, length_word (length_msg_le _), Nat.min_eq_left (q.heldSize_le I)]
  · obtain ⟨row, rfl⟩ := exists_row hi
    obtain ⟨hlt, hnot⟩ := mem_erased.mp hi
    have hx : (q.received I)[(q.erased I)[row]]? = some (blankData (q.heldSize I)) := by
      rw [received, List.getElem?_map, List.getElem?_range hlt, Option.map_some, if_neg hnot]
    have hlt' : (q.erased I)[row] < bytes.length := by
      rw [hb.length]
      exact (List.getElem?_eq_some_iff.mp hx).1
    have hov := hb.row row (List.mem_finRange row) _ _ hx (List.getElem?_eq_getElem hlt')
    rw [List.getD_eq_getElem?_getD, List.getElem?_eq_getElem hlt', Option.getD_some] at hlen hp ⊢
    rw [hlen] at hp
    rw [hov.at_lt p hp]
    simp only [byteAt, List.getD_eq_getElem?_getD, List.getElem?_take_of_lt hp]

/-! ## Rebuilt blocks -/

section Rebuilt

variable {b : FECBlock} {i₀ i sz : ℕ}

/-- The length field is inside the coded bytes, so a rebuilt block has the length of
its message, whether or not the message fits. -/
theorem length_rebuilt (hb : b.data = q.tag i₀ ++ (word q.size (q.msg i)).take sz) (h2 : 2 ≤ sz)
    (hi : i < q.nBlocks) : b.length = (q.msg i).length := by
  have hlt : (q.msg i).length < 65536 := by
    have := q.msg_le _ (msg_mem hi)
    omega
  obtain ⟨sz, rfl⟩ := Nat.exists_eq_add_of_le h2
  have htake : (word q.size (q.msg i)).take (2 + sz) = lengthBytes (q.msg i).length ++
      (q.msg i ++ List.replicate (q.size - ((q.msg i).length + 2)) 0).take sz := by
    rw [word, List.append_assoc, ← length_lengthBytes (q.msg i).length,
      List.take_length_add_append]
  simp only [FECBlock.length, FECBlock.header, FECBlock.byte, hb, htake]
  exact lengthBytes_toNat hlt

theorem payload_rebuilt (hb : b.data = q.tag i₀ ++ (word q.size (q.msg i)).take sz)
    (hsz : sz ≤ q.size) (hi : i < q.nBlocks) (hfit : (q.msg i).length + 2 ≤ sz) :
    b.payload = some (q.msg i) := by
  have hlen := length_rebuilt hb (by omega) hi
  rw [take_word hfit hsz] at hb
  have hdrop : b.data.drop fecOverhead =
      q.msg i ++ List.replicate (sz - ((q.msg i).length + 2)) 0 := by
    rw [hb, word]
    rfl
  have hdlen : b.data.length = sz + 4 := by
    rw [hb, List.length_append, length_tag, length_word hfit, Nat.add_comm]
  rw [FECBlock.payload, hlen, if_pos (by rw [hdlen]; simp only [fecOverhead]; omega), hdrop,
    List.take_left]

end Rebuilt

end Sequence

end WfbBridge
