import Mathlib
import WfbBridge.Encoder.Basic

/-!
# `FECBufferEncoder`

`encode_buffer` cuts a buffer into blocks and sends them through an encoder of their
own.  The divisions of the source are in `double` and the FEC ratio is a `float`; both
are exact here.  The rest of its arithmetic is in `uint32_t` and is written with the
wrap-around.
-/

namespace WfbBridge

open Checked

/-- A value narrowed to `uint32_t`. -/
def u32 (n : ℕ) : ℕ := n % 4294967296

theorem u32_of_lt {n : ℕ} (h : n < 4294967296) : u32 n = n := Nat.mod_eq_of_lt h

/-- `FECBufferEncoder`. -/
structure FECBufferEncoder where
  maxBlockSize : ℕ := 1460
  fecRatio : ℚ := 1 / 2
  seqNum : ℕ := 1
deriving DecidableEq

namespace FECBufferEncoder

/-- `nblocks` and `block_size`, unless there are too many blocks to encode. -/
def partition (e : FECBufferEncoder) (len : ℕ) : Option (ℕ × ℕ) :=
  let nblocks := u32 (len ⌈/⌉ e.maxBlockSize)
  let blockSize := u32 (len ⌈/⌉ nblocks)
  if 255 < nblocks then none
  -- less than a block worth of data
  else if len ≤ e.maxBlockSize then some (1, u32 len)
  else some (nblocks, blockSize)

/-- `start` in the loop over the blocks. -/
def start (blockSize b : ℕ) : ℕ := u32 (b * blockSize)

/-- `end` in the loop over the blocks. -/
def stop (blockSize len b : ℕ) : ℕ := min (u32 (start blockSize b + blockSize)) (u32 len)

/-- `length` in the loop over the blocks. -/
def sliceLength (blockSize len b : ℕ) : ℕ :=
  u32 (stop blockSize len b + 4294967296 - start blockSize b)

/-- One turn of the loop over the blocks.  The copy stops at the first byte outside the buffer. -/
def addSlice (buf : List UInt8) (blockSize : ℕ) (enc : FECEncoder) (b : ℕ) :
    Except Fault FECEncoder := do
  let blk ← enc.getNextBlock (sliceLength blockSize buf.length b)
  let first := start blockSize b
  let last := stop blockSize buf.length b
  if first ≤ last ∧ last ≤ buf.length then do
    let blk ← blk.fill ((buf.drop first).take (last - first))
    enc.addBlock blk
  else .error .index

/-- `encode_buffer` with blocks allocated for `blockLen` bytes each. -/
def encodeWith (e : FECBufferEncoder) (blockLen : ℕ) (buf : List UInt8) :
    Except Fault (List FECBlock × FECBufferEncoder) :=
  match e.partition buf.length with
  | none => .ok ([], e)
  | some (nblocks, blockSize) => do
      let nfecblocks := u8 ⌈nblocks * e.fecRatio⌉₊
      let enc := FECEncoder.new (u8 nblocks) nfecblocks (u16 blockLen) e.seqNum
      let e := { e with seqNum := FECEncoder.nextSeqNum e.seqNum }
      let enc ← (List.range nblocks).foldlM (addSlice buf blockSize) enc
      -- pull all the blocks out of the encoder
      .ok (enc.outBlocks, e)

/-- `encode_buffer`. -/
def encodeBuffer (e : FECBufferEncoder) (buf : List UInt8) :
    Except Fault (List FECBlock × FECBufferEncoder) :=
  e.encodeWith e.maxBlockSize buf

/-! ## The slices -/

section Slices

variable {len m n s : ℕ}

/-- The two roundings together: `n` blocks of `s` bytes cover the buffer,
and the last of them is not empty. -/
theorem ceilDiv_ceilDiv (hlen : 0 < len) (hm : 0 < m) (hn : n = len ⌈/⌉ m) (hs : s = len ⌈/⌉ n) :
    0 < n ∧ s ≤ m ∧ len ≤ n * s ∧ (n - 1) * s < len := by
  have hcover : len ≤ m * n := hn ▸ le_smul_ceilDiv hm
  have hpos : 0 < n := by
    rcases Nat.eq_zero_or_pos n with rfl | h
    · simp at hcover
      omega
    · exact h
  have hle : s ≤ m := by
    rw [hs, ceilDiv_le_iff_le_mul hpos, Nat.mul_comm]
    exact hcover
  have hlast : m * (n - 1) < len := by
    by_contra h
    have := (ceilDiv_le_iff_le_mul hm).mpr (Nat.le_of_not_lt h)
    omega
  refine ⟨hpos, hle, hs ▸ le_smul_ceilDiv hpos, ?_⟩
  calc (n - 1) * s ≤ (n - 1) * m := Nat.mul_le_mul_left _ hle
    _ = m * (n - 1) := Nat.mul_comm _ _
    _ < len := hlast

/-- What `encode_buffer` needs of its two numbers. -/
structure Cuts (len n s : ℕ) : Prop where
  pos : 0 < n
  covers : len ≤ n * s
  last : (n - 1) * s < len
  small : n * s < 4294967296

variable {b : ℕ}

theorem Cuts.mul_lt (h : Cuts len n s) (hb : b < n) : b * s < len :=
  (Nat.mul_le_mul_right s (Nat.le_sub_one_of_lt hb)).trans_lt h.last

theorem mul_add_le (hb : b < n) : b * s + s ≤ n * s := by
  rw [← Nat.succ_mul]
  exact Nat.mul_le_mul_right s hb

theorem Cuts.start_eq (h : Cuts len n s) (hb : b < n) : start s b = b * s := by
  have := mul_add_le (s := s) hb
  have := h.small
  exact u32_of_lt (by omega)

theorem Cuts.stop_eq (h : Cuts len n s) (hb : b < n) (hlen : len < 4294967296) :
    stop s len b = min (b * s + s) len := by
  have := mul_add_le (s := s) hb
  have := h.small
  rw [stop, h.start_eq hb, u32_of_lt hlen, u32_of_lt (by omega)]

theorem Cuts.sliceLength_eq (h : Cuts len n s) (hb : b < n) (hlen : len < 4294967296) :
    sliceLength s len b = min s (len - b * s) := by
  have := h.mul_lt hb
  rw [sliceLength, h.stop_eq hb hlen, h.start_eq hb, u32]
  omega

/-- The numbers `encode_buffer` works with. -/
theorem partition_eq {e : FECBufferEncoder} (hlen : 0 < len) (hlt : len < 4294967296)
    (hmin : 0 < e.maxBlockSize) (hmax : e.maxBlockSize ≤ 65535)
    (hn : len ⌈/⌉ e.maxBlockSize ≤ 255) :
    ∃ s, e.partition len = some (len ⌈/⌉ e.maxBlockSize, s) ∧
      Cuts len (len ⌈/⌉ e.maxBlockSize) s ∧ s ≤ e.maxBlockSize := by
  have hu : u32 (len ⌈/⌉ e.maxBlockSize) = len ⌈/⌉ e.maxBlockSize := u32_of_lt (by omega)
  by_cases hle : len ≤ e.maxBlockSize
  · -- one block, with all of the buffer
    have hone : len ⌈/⌉ e.maxBlockSize = 1 := by
      have hle' := (ceilDiv_le_iff_le_mul hmin).mpr (hle.trans_eq (Nat.mul_one _).symm)
      have hpos := (ceilDiv_ceilDiv hlen hmin rfl rfl).1
      omega
    refine ⟨len, ?_, ?_, hle⟩
    · rw [hone] at hu
      rw [partition, hone, hu, if_neg (by omega), if_pos hle, u32_of_lt hlt]
    · rw [hone]
      exact ⟨Nat.one_pos, (Nat.one_mul len).ge, by simpa using hlen, by rwa [Nat.one_mul]⟩
  · obtain ⟨hpos, hs, hcovers, hlast⟩ := ceilDiv_ceilDiv hlen hmin rfl rfl
    refine ⟨len ⌈/⌉ (len ⌈/⌉ e.maxBlockSize), ?_, ⟨hpos, hcovers, hlast, ?_⟩, hs⟩
    · rw [partition, hu, if_neg (by omega), if_neg hle, u32_of_lt (by omega)]
    · calc _ ≤ 255 * 65535 := Nat.mul_le_mul hn (hs.trans hmax)
        _ < 4294967296 := by decide

end Slices

/-- The slices are a partition of the buffer, and no step of the arithmetic wraps around. -/
theorem slices_exact (e : FECBufferEncoder) (len : ℕ) (hpos : 1 ≤ len) (hlt : len < 4294967296)
    (hmin : 1 ≤ e.maxBlockSize) (hmax : e.maxBlockSize ≤ 65535)
    (hn : len ⌈/⌉ e.maxBlockSize ≤ 255) :
    ∃ nblocks blockSize, e.partition len = some (nblocks, blockSize) ∧
      nblocks = len ⌈/⌉ e.maxBlockSize ∧ 0 < nblocks ∧
      start blockSize 0 = 0 ∧ stop blockSize len (nblocks - 1) = len ∧
      (∀ b < nblocks,
        b * blockSize < 4294967296 ∧ start blockSize b + blockSize < 4294967296 ∧
        start blockSize b < len ∧ start blockSize b < stop blockSize len b ∧
        sliceLength blockSize len b = stop blockSize len b - start blockSize b ∧
        sliceLength blockSize len b ≤ e.maxBlockSize ∧
        u16 (sliceLength blockSize len b) = sliceLength blockSize len b) ∧
      ∀ b, b + 1 < nblocks →
        stop blockSize len b = start blockSize (b + 1) ∧
        sliceLength blockSize len b = blockSize := by
  obtain ⟨s, hpart, hcuts, hs⟩ := partition_eq hpos hlt hmin hmax hn
  refine ⟨_, s, hpart, rfl, hcuts.pos, ?_, ?_, ?_, ?_⟩
  · rw [hcuts.start_eq hcuts.pos, Nat.zero_mul]
  · have hlast := hcuts.last
    have hcovers := hcuts.covers
    have hpred := Nat.sub_one_mul (len ⌈/⌉ e.maxBlockSize) s
    rw [hcuts.stop_eq (Nat.sub_one_lt hcuts.pos.ne') hlt]
    omega
  · intro b hb
    have hstart := hcuts.mul_lt hb
    have hadd := mul_add_le (s := s) hb
    have hsmall := hcuts.small
    rw [hcuts.sliceLength_eq hb hlt, hcuts.stop_eq hb hlt, hcuts.start_eq hb]
    have hs0 : 0 < s := by
      rcases Nat.eq_zero_or_pos s with rfl | h
      · have := hcuts.covers
        omega
      · exact h
    refine ⟨by omega, by omega, hstart, by omega, by omega, by omega, u16_of_lt (by omega)⟩
  · intro b hb
    have hnext := hcuts.mul_lt hb
    rw [Nat.succ_mul] at hnext
    rw [hcuts.sliceLength_eq (by omega) hlt, hcuts.stop_eq (by omega) hlt, hcuts.start_eq hb,
      Nat.succ_mul]
    exact ⟨by omega, by omega⟩

/-- 100 bytes in blocks of at most 30: four slices of 25 bytes. -/
theorem slices_exact_hundred : ∃ nblocks blockSize,
    partition { maxBlockSize := 30 } 100 = some (nblocks, blockSize) ∧
      stop blockSize 100 (nblocks - 1) = 100 := by
  obtain ⟨n, s, hpart, -, -, -, hstop, -, -⟩ := slices_exact { maxBlockSize := 30 } 100
    (by decide) (by decide) (by decide) (by decide) (by decide)
  exact ⟨n, s, hpart, hstop⟩

end FECBufferEncoder

end WfbBridge
