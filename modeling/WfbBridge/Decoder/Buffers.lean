import Mathlib
import WfbBridge.Decoder.Limits
import WfbBridge.Encoder.Buffer

/-!
# Recovery of whole buffers

`encode_buffer` sends a buffer as one batch.  It checks that there are at most 255 data blocks,
which is what fits into a byte, but the code works for 128 data blocks and 128 FEC blocks only, and
the asserts that say so in `fec_encode` are compiled out.
-/

namespace WfbBridge

open Checked Fec

namespace FECBufferEncoder

/-! ## The slices as messages -/

/-- Slice `b` of a buffer. -/
def slice (s : ℕ) (buf : List UInt8) (b : ℕ) : List UInt8 := (buf.drop (b * s)).take s

/-- The slices of a buffer. -/
def slices (s n : ℕ) (buf : List UInt8) : List (List UInt8) := (List.range n).map (slice s buf)

section Slices

variable {buf : List UInt8} {n s b : ℕ}

@[simp] theorem length_slices : (slices s n buf).length = n := by simp [slices]

theorem getElem?_slices (hb : b < n) : (slices s n buf)[b]? = some (slice s buf b) := by
  rw [slices, List.getElem?_map, List.getElem?_range hb, Option.map_some]

theorem length_slice (s : ℕ) (buf : List UInt8) (b : ℕ) :
    (slice s buf b).length = min s (buf.length - b * s) := by
  rw [slice, List.length_take, List.length_drop]

/-- The slices fit into a block. -/
theorem length_add_two_le {blockLen : ℕ} (hs : s + 2 ≤ blockLen) :
    ∀ m ∈ slices s n buf, m.length + 2 ≤ blockLen := by
  intro m hm
  obtain ⟨b, -, rfl⟩ := List.mem_map.mp hm
  rw [length_slice]
  omega

theorem Cuts.slices_ne_nil (h : Cuts buf.length n s) : slices s n buf ≠ [] :=
  List.ne_nil_of_length_pos (by rw [length_slices]; exact h.pos)

theorem flatten_slices (s n : ℕ) (buf : List UInt8) :
    (slices s n buf).flatten = buf.take (n * s) := by
  induction n with
  | zero => simp [slices]
  | succ n ih =>
      have hsucc : slices s (n + 1) buf = slices s n buf ++ [slice s buf n] := by
        rw [slices, List.range_succ, List.map_append, List.map_singleton, slices]
      rw [hsucc, List.flatten_append, ih, List.flatten_singleton, slice, Nat.succ_mul,
        List.take_add]

theorem Cuts.flatten_slices (h : Cuts buf.length n s) : (slices s n buf).flatten = buf := by
  rw [FECBufferEncoder.flatten_slices, List.take_of_length_le h.covers]

/-- The first slice is a longest one. -/
theorem Cuts.longest_slices (h : Cuts buf.length n s) :
    longest (slices s n buf) = (slice s buf 0).length := by
  refine le_antisymm (longest_le ?_) (le_longest (List.mem_of_getElem? (getElem?_slices h.pos)))
  intro m hm
  obtain ⟨b, -, rfl⟩ := List.mem_map.mp hm
  rw [length_slice, length_slice]
  omega

/-- One turn of the loop adds a slice. -/
theorem Cuts.addSlice (h : Cuts buf.length n s) (hb : b < n) (hlen : buf.length < 4294967296)
    (enc : FECEncoder) : FECBufferEncoder.addSlice buf s enc b = enc.push (slice s buf b) := by
  have hstart := h.mul_lt hb
  have hslice : (buf.drop (b * s)).take (min (b * s + s) buf.length - b * s) = slice s buf b := by
    rw [slice, List.take_eq_take_iff, List.length_drop]
    omega
  rw [FECBufferEncoder.addSlice, FECEncoder.push, h.sliceLength_eq hb hlen, h.start_eq hb,
    h.stop_eq hb hlen, length_slice]
  congr 1
  funext blk
  rw [if_pos (by omega), hslice]

/-- The loop over the slices. -/
theorem Cuts.foldlM_addSlice (h : Cuts buf.length n s) (hlen : buf.length < 4294967296)
    (enc : FECEncoder) : (List.range n).foldlM (FECBufferEncoder.addSlice buf s) enc =
      (slices s n buf).foldlM FECEncoder.push enc := by
  have hpre : ∀ m ≤ n, ∀ enc, (List.range m).foldlM (FECBufferEncoder.addSlice buf s) enc =
      ((List.range m).map (slice s buf)).foldlM FECEncoder.push enc := by
    intro m
    induction m with
    | zero => exact fun _ _ ↦ rfl
    | succ m ih =>
        intro hm enc
        rw [List.range_succ, List.foldlM_append, List.map_append, List.foldlM_append, ih (by omega)]
        congr 1
        funext enc'
        rw [List.foldlM_cons, List.map_singleton, List.foldlM_cons, h.addSlice hm hlen]
        rfl
  exact hpre n le_rfl enc

end Slices

/-! ## The blocks of a buffer -/

/-- `nblocks`. -/
def nblocks (e : FECBufferEncoder) (len : ℕ) : ℕ := len ⌈/⌉ e.maxBlockSize

/-- `nfecblocks`, before it is narrowed. -/
def nfecblocks (e : FECBufferEncoder) (len : ℕ) : ℕ := ⌈e.nblocks len * e.fecRatio⌉₊

/-- A buffer within the limits that `encode_buffer` checks or relies on.  `blockLen` is what is
allocated for a block: enough for a slice and its length field. -/
structure Encodes (e : FECBufferEncoder) (blockLen len : ℕ) : Prop where
  len_pos : 1 ≤ len
  two_le : 2 ≤ e.maxBlockSize
  le_max : e.maxBlockSize ≤ 65529
  ratio_pos : 0 < e.fecRatio
  nblocks_le : e.nblocks len ≤ 255
  nfecblocks_le : e.nfecblocks len ≤ 255
  room : ∀ p ∈ e.partition len, p.2 + 2 ≤ blockLen
  blockLen_le : blockLen ≤ 65531
  seqNum_pos : 0 < e.seqNum
  seqNum_lt : e.seqNum < 256

/-- The encoder of a buffer. -/
def batchEncoder (e : FECBufferEncoder) (blockLen len : ℕ) : FECEncoder :=
  FECEncoder.new (e.nblocks len) (e.nfecblocks len) blockLen e.seqNum

section Blocks

variable {e : FECBufferEncoder} {blockLen : ℕ} {buf : List UInt8}

theorem Encodes.max_pos {len : ℕ} (h : e.Encodes blockLen len) : 0 < e.maxBlockSize :=
  Nat.zero_lt_of_lt h.two_le

theorem Encodes.nblocks_pos {len : ℕ} (h : e.Encodes blockLen len) : 0 < e.nblocks len :=
  (ceilDiv_ceilDiv h.len_pos h.max_pos rfl rfl).1

theorem Encodes.nfecblocks_pos {len : ℕ} (h : e.Encodes blockLen len) : 0 < e.nfecblocks len :=
  Nat.ceil_pos.mpr (mul_pos (Nat.cast_pos.mpr h.nblocks_pos) h.ratio_pos)

/-- `encode_buffer` sends the slices as one batch. -/
theorem Encodes.encodeWith (h : e.Encodes blockLen buf.length) :
    ∃ s, Cuts buf.length (e.nblocks buf.length) s ∧ s + 2 ≤ blockLen ∧
      e.encodeWith blockLen buf = (do
        let enc ← { e.batchEncoder blockLen buf.length with
          inBlocks := (slices s (e.nblocks buf.length) buf).mapIdx
            (e.batchEncoder blockLen buf.length).filledBlock }.encodeBlocks
        .ok (enc.outBlocks, { e with seqNum := FECEncoder.nextSeqNum e.seqNum })) := by
  have hlen : buf.length < 4294967296 := by
    have hcover : buf.length ≤ e.maxBlockSize * e.nblocks buf.length := le_smul_ceilDiv h.max_pos
    have hle := Nat.mul_le_mul h.le_max h.nblocks_le
    omega
  obtain ⟨s, hpart, hcuts, -⟩ := partition_eq h.len_pos hlen h.max_pos
    (h.le_max.trans (by decide)) h.nblocks_le
  have hs : s + 2 ≤ blockLen := h.room _ hpart
  refine ⟨s, hcuts, hs, ?_⟩
  have hn : u8 (buf.length ⌈/⌉ e.maxBlockSize) = e.nblocks buf.length :=
    u8_of_lt (Nat.lt_of_le_of_lt h.nblocks_le (by decide))
  have hf : u8 ⌈((buf.length ⌈/⌉ e.maxBlockSize : ℕ) : ℚ) * e.fecRatio⌉₊ =
      e.nfecblocks buf.length :=
    u8_of_lt (Nat.lt_of_le_of_lt h.nfecblocks_le (by decide))
  have hb : u16 blockLen = blockLen := u16_of_lt (Nat.lt_of_le_of_lt h.blockLen_le (by decide))
  have hbatch := FECEncoder.foldlM_push (e := e.batchEncoder blockLen buf.length) h.blockLen_le
    (Nat.lt_of_le_of_lt h.nblocks_le (by decide)) h.nfecblocks_pos rfl
    hcuts.slices_ne_nil length_slices (length_add_two_le hs)
  simp only [FECBufferEncoder.encodeWith, hpart, hn, hf, hb, hcuts.foldlM_addSlice hlen]
  exact congrArg (· >>= _) hbatch

/-- The blocks of a buffer, and the packets as the receiver holds them. -/
structure Sent (e : FECBufferEncoder) (s : ℕ) (buf : List UInt8) (blocks : List FECBlock)
    (recv : ℕ → FECBlock) : Prop where
  length : blocks.length = e.nblocks buf.length + e.nfecblocks buf.length
  packet : ∀ (k : ℕ) (b : FECBlock), blocks[k]? = some b →
    b.packet = (recv k).data ∧ FECBlock.ofPacket (recv k).data = .ok (recv k) ∧
    (recv k).HasHeader e.seqNum (u8 k) (e.nblocks buf.length) (e.nfecblocks buf.length)
  data : ∀ (k : ℕ) (b : FECBlock), blocks[k]? = some b → k < e.nblocks buf.length →
    b.length = (slice s buf k).length ∧ (recv k).payload = some (slice s buf k) ∧
    (recv k).blockSize ≠ 0

/-- A block and the packet the receiver makes of it carry the same message. -/
theorem carries_of_packet {b blk : FECBlock} {a₀ a₁ a₂ a₃ : UInt8} {size : ℕ} {msg : List UInt8}
    (hpacket : b.packet = blk.data) (hdata : blk.data = [a₀, a₁, a₂, a₃] ++ word size msg)
    (hlt : msg.length + 2 < 65536) :
    b.length = msg.length ∧ blk.payload = some msg ∧ blk.blockSize ≠ 0 := by
  have hword : blk.data = [a₀, a₁, a₂, a₃] ++ word size msg ++ [] := by rw [hdata, List.append_nil]
  have hbdata : b.data = [a₀, a₁, a₂, a₃] ++ word size msg ++ b.data.drop b.dataLength := by
    rw [← hdata, ← hpacket]
    exact (List.take_append_drop _ _).symm
  refine ⟨FECBlock.length_of_word hbdata (by omega), FECBlock.payload_of_word hword (by omega), ?_⟩
  rw [FECBlock.blockSize, FECBlock.length_of_word hword (by omega), u16_of_lt hlt]
  omega

/-- With at most 128 data blocks, all blocks are sent. -/
theorem Encodes.exists_sent (h : e.Encodes blockLen buf.length) (hn : e.nblocks buf.length ≤ 128) :
    ∃ s blocks recv, Cuts buf.length (e.nblocks buf.length) s ∧
      e.encodeWith blockLen buf =
        .ok (blocks, { e with seqNum := FECEncoder.nextSeqNum e.seqNum }) ∧
      e.Sent s buf blocks recv := by
  obtain ⟨s, hcuts, hs, henc⟩ := h.encodeWith
  have hle := h.blockLen_le
  have hlong : longest (slices s (e.nblocks buf.length) buf) + 2 ≤ blockLen := by
    rw [hcuts.longest_slices, length_slice]
    omega
  obtain ⟨bodies, sent, hbodies, hbody, hsent, hblocks⟩ :=
    FECEncoder.encodeBlocks_sends (e := { e.batchEncoder blockLen buf.length with
      inBlocks := (slices s (e.nblocks buf.length) buf).mapIdx
        (e.batchEncoder blockLen buf.length).filledBlock }) hcuts.slices_ne_nil length_slices.le hle
      (length_add_two_le hs) rfl (length_slices.trans_le hn) (h.nfecblocks_le.trans (by decide))
  rw [hblocks, ok_bind] at henc
  have hlen : sent.length = e.nblocks buf.length + e.nfecblocks buf.length := by
    rw [hsent.length_eq, List.length_append, List.length_mapIdx, List.length_mapIdx, length_slices,
      hbodies]
    rfl
  have hrecv : ∀ k, ∃ blk, ∀ b, sent[k]? = some b →
      (b.packet = blk.data ∧ FECBlock.ofPacket blk.data = .ok blk ∧
        blk.HasHeader e.seqNum (u8 k) (e.nblocks buf.length) (e.nfecblocks buf.length)) ∧
      (k < e.nblocks buf.length → b.length = (slice s buf k).length ∧
        blk.payload = some (slice s buf k) ∧ blk.blockSize ≠ 0) := by
    intro k
    cases hk : sent[k]? with
    | none => exact ⟨⟨List.replicate 6 0, 6, le_rfl⟩, fun b hb ↦ by simp at hb⟩
    | some b =>
        obtain ⟨body, hlength, hsentAs, hword⟩ := FECEncoder.exists_body hbody
          (fun m hm ↦ Nat.add_le_add_right (le_longest hm) 2) hsent hk
        rw [length_slices] at hsentAs
        obtain ⟨blk, hblk, hdata, hheader⟩ := FECEncoder.exists_ofPacket
          (e := e.batchEncoder blockLen buf.length) h.seqNum_lt
          (Nat.lt_of_le_of_lt h.nfecblocks_le (by decide)) (n := e.nblocks buf.length) (by omega) k
          (by omega : 2 ≤ body.length) (by omega)
        have hpacket : b.packet = blk.data := hsentAs.packet.trans hdata.symm
        refine ⟨blk, fun b' hb' ↦ ?_⟩
        obtain rfl : b = b' := Option.some.inj hb'
        refine ⟨⟨hpacket, hdata ▸ hblk, hheader⟩, fun hlt ↦ ?_⟩
        rw [hword _ (getElem?_slices hlt)] at hdata
        refine carries_of_packet hpacket hdata ?_
        rw [length_slice]
        omega
  choose recv hrecv using hrecv
  exact ⟨s, sent, recv, hcuts, henc, hlen, fun k b hb ↦ (hrecv k b hb).1,
    fun k b hb ↦ (hrecv k b hb).2⟩

end Blocks

/-! ## Recovery -/

/-- Enough of the blocks for the decoder: in order, as many as there are data blocks, and among them
a data block of the largest length. -/
structure Suffices (n : ℕ) (blocks : List FECBlock) (kept : List (FECBlock × ℕ)) : Prop where
  sublist : kept.Sublist blocks.zipIdx
  enough : n ≤ kept.length
  largest : ∃ b ∈ kept, b.2 < n ∧ ∀ b' ∈ blocks.take n, b'.length ≤ b.1.length

/-- The buffer is encoded, and a new decoder outputs it from any blocks that suffice. -/
def RecoversBuffer (e : FECBufferEncoder) (blockLen : ℕ) (buf : List UInt8) : Prop :=
  ∃ blocks e', e.encodeWith blockLen buf = .ok (blocks, e') ∧
    ∀ kept, Suffices (e.nblocks buf.length) blocks kept →
      ∃ (outs : List (List (FECBlock × ℕ))) (d : FECDecoder) (msgs : List (List UInt8)),
        Run.run FECDecoder.deliver {} (kept.map (·.1.packet)) = .ok (outs, d) ∧
        payloads outs = msgs.map some ∧ msgs.flatten = buf

section Recovery

variable {e : FECBufferEncoder} {blockLen s n : ℕ} {buf : List UInt8} {blocks : List FECBlock}
  {recv : ℕ → FECBlock} {kept : List (FECBlock × ℕ)}

theorem Suffices.getElem? (h : Suffices n blocks kept) {b : FECBlock × ℕ} (hb : b ∈ kept) :
    blocks[b.2]? = some b.1 := List.mem_zipIdx_iff_getElem?.mp (h.sublist.subset hb)

theorem Suffices.sorted (h : Suffices n blocks kept) :
    (kept.map Prod.snd).Sublist (List.range blocks.length) := by
  rw [List.range_eq_range', ← List.zipIdx_map_snd]
  exact h.sublist.map _

/-- The packets that arrive, as the receiver holds them. -/
theorem Sent.map_packet (h : e.Sent s buf blocks recv) (hk : kept.Sublist blocks.zipIdx) :
    kept.map (·.1.packet) = ((kept.map Prod.snd).map recv).map FECBlock.data := by
  rw [List.map_map, List.map_map]
  refine List.map_congr_left fun b hb ↦ ?_
  exact (h.packet b.2 b.1 (List.mem_zipIdx_iff_getElem?.mp (hk.subset hb))).1

/-- One data block is lost, and one FEC block arrives. -/
theorem Sent.suffices (h : e.Sent s buf blocks recv)
    (h2 : 2 ≤ e.nblocks buf.length) {k : ℕ} {b : FECBlock} (hb : blocks[k]? = some b)
    (hk : e.nblocks buf.length ≤ k) :
    Suffices (e.nblocks buf.length) blocks
      (blocks.zipIdx.take (e.nblocks buf.length - 1) ++ [(b, k)]) := by
  have hlen := h.length
  have hmem : (b, k) ∈ blocks.zipIdx.drop (e.nblocks buf.length - 1) := by
    refine List.mem_iff_getElem?.mpr ⟨k - (e.nblocks buf.length - 1), ?_⟩
    rw [List.getElem?_drop, Nat.add_sub_cancel' (by omega), List.getElem?_zipIdx, hb,
      Option.map_some, Nat.zero_add]
  have h0 : 0 < blocks.length := by omega
  refine ⟨?_, ?_, (blocks[0], 0), ?_, by simp only; omega, ?_⟩
  · have := (List.Sublist.refl (blocks.zipIdx.take (e.nblocks buf.length - 1))).append
      (List.singleton_sublist.mpr hmem)
    rwa [List.take_append_drop] at this
  · rw [List.length_append, List.length_take, List.length_zipIdx, List.length_singleton]
    omega
  · refine List.mem_append_left _ (List.mem_iff_getElem?.mpr ⟨0, ?_⟩)
    rw [List.getElem?_take_of_lt (by omega), List.getElem?_zipIdx, List.getElem?_eq_getElem h0]
    rfl
  · intro b' hb'
    obtain ⟨i, hi⟩ := List.mem_iff_getElem?.mp hb'
    have hin : i < e.nblocks buf.length := by
      have := (List.getElem?_eq_some_iff.mp hi).1
      rw [List.length_take] at this
      omega
    rw [List.getElem?_take_of_lt hin] at hi
    rw [(h.data i b' hi hin).1,
      (h.data 0 blocks[0] (List.getElem?_eq_getElem h0) (by omega)).1, length_slice, length_slice]
    omega

/-- The data blocks but for the last one. -/
theorem Sent.run_data (h : e.Sent s buf blocks recv) (hseq : 0 < e.seqNum)
    (hf : 0 < e.nfecblocks buf.length) (hn : 0 < e.nblocks buf.length)
    (hle : e.nblocks buf.length ≤ 128) :
    ∃ outs d, Run.run FECDecoder.deliver {}
        ((blocks.zipIdx.take (e.nblocks buf.length - 1)).map (·.1.packet)) = .ok (outs, d) ∧
      d.Gathered e.seqNum (e.nblocks buf.length) (e.nfecblocks buf.length)
        ((List.range (e.nblocks buf.length - 1)).map recv) ∧
      payloads outs = (slices s (e.nblocks buf.length - 1) buf).map some := by
  have hlen := h.length
  have hrecv : ∀ i, i < e.nblocks buf.length - 1 →
      (FECBlock.ofPacket (recv i).data = .ok (recv i) ∧ (recv i).blockSize ≠ 0) ∧
      (recv i).HasHeader e.seqNum i (e.nblocks buf.length) (e.nfecblocks buf.length) ∧
      (recv i).payload = some (slice s buf i) := by
    intro i hi
    have hi' : i < blocks.length := by omega
    obtain ⟨-, hpkt, hheader⟩ := h.packet i _ (List.getElem?_eq_getElem hi')
    obtain ⟨-, hpay, hsize⟩ := h.data i _ (List.getElem?_eq_getElem hi') (by omega)
    rw [u8_of_lt (by omega)] at hheader
    exact ⟨⟨hpkt, hsize⟩, hheader, hpay⟩
  have hsnd : (blocks.zipIdx.take (e.nblocks buf.length - 1)).map Prod.snd =
      List.range (e.nblocks buf.length - 1) := by
    rw [List.map_take, List.zipIdx_map_snd, ← List.range_eq_range', List.take_range,
      Nat.min_eq_left (by omega)]
  obtain ⟨outs, d, hrun, hd, hout⟩ := FECDecoder.run_gathered
    ((List.range (e.nblocks buf.length - 1)).map recv) (n := e.nblocks buf.length) hseq hf
    (by rw [List.length_map, List.length_range]; omega)
    (fun blk hblk ↦ by
      obtain ⟨i, hi, rfl⟩ := List.mem_map.mp hblk
      exact (hrecv i (List.mem_range.mp hi)).1)
    (fun i blk hblk ↦ by
      obtain ⟨j, hj, rfl⟩ := Option.map_eq_some_iff.mp ((List.getElem?_map ..).symm.trans hblk)
      obtain ⟨hi, rfl⟩ := List.getElem?_eq_some_iff.mp hj
      rw [List.getElem_range]
      exact (hrecv i (by simpa using hi)).2.1)
  refine ⟨outs, d, ?_, hd, ?_⟩
  · rw [h.map_packet (List.take_sublist _ _), hsnd]
    exact hrun
  · rw [hout, slices, List.map_map, List.map_map]
    exact List.map_congr_left fun i hi ↦ (hrecv i (List.mem_range.mp hi)).2.2

/-! ### Outside the limits -/

/-- With an FEC block that has no number of its own, the buffer is not recovered. -/
theorem Encodes.not_recovers_fec (h : e.Encodes blockLen buf.length)
    (h2 : 2 ≤ e.nblocks buf.length) (hn : e.nblocks buf.length ≤ 128)
    (hf : 128 < e.nfecblocks buf.length) : ¬e.RecoversBuffer blockLen buf := by
  obtain ⟨s, blocks, recv, hcuts, henc, hsent⟩ := h.exists_sent hn
  rintro ⟨blocks', e', henc', hrecovers⟩
  obtain ⟨rfl, -⟩ := Prod.mk.inj (Except.ok.inj (henc.symm.trans henc'))
  have hlen := hsent.length
  have hk : e.nblocks buf.length + 128 < blocks.length := by omega
  have hget := List.getElem?_eq_getElem hk
  obtain ⟨outs, d, msgs, hrun, hout, hflat⟩ := hrecovers _
    (hsent.suffices h2 hget (Nat.le_add_right _ _))
  obtain ⟨outs₁, d₁, hrun₁, hd₁, hout₁⟩ :=
    hsent.run_data h.seqNum_pos h.nfecblocks_pos h.nblocks_pos hn
  obtain ⟨hpacket, hofPacket, hheader⟩ := hsent.packet _ _ hget
  rw [List.map_append, Run.run_append_eq_ok] at hrun
  obtain ⟨outs₁', d₁', outs₂, hrun₁', hrun₂, rfl⟩ := hrun
  obtain ⟨rfl, rfl⟩ := Prod.mk.inj (Except.ok.inj (hrun₁.symm.trans hrun₁'))
  obtain ⟨out, d₂, outs₃, hdeliver, hnil, rfl⟩ := Run.run_cons_eq_ok.mp hrun₂
  obtain ⟨rfl, rfl⟩ := Prod.mk.inj (Except.ok.inj hnil)
  simp only [hpacket] at hdeliver
  have hbs : ((List.range (e.nblocks buf.length - 1)).map recv).length + 1 =
      e.nblocks buf.length := by
    rw [List.length_map, List.length_range]
    omega
  rcases hn.lt_or_eq with hlt | heq
  · -- the number is beyond the table
    rw [u8_of_lt (by omega)] at hheader
    refine hd₁.deliver_high h.seqNum_pos h.nfecblocks_pos hbs (List.ne_nil_of_length_pos (by omega))
      (by omega) hofPacket hheader (Nat.le_add_right _ _) ?_ hdeliver
    rw [FECBlock.fecIdx, hheader.block, hheader.nBlocks, u8]
    omega
  · -- the number is the one of the first data block
    have hzero : u8 (e.nblocks buf.length + 128) = 0 := by rw [heq]; rfl
    rw [hzero] at hheader
    obtain ⟨d₂', hdeliver', -⟩ := hd₁.deliver_data h.seqNum_pos h.nfecblocks_pos hofPacket hheader
      (by omega) fun hne ↦ absurd hbs hne
    rw [if_neg (by omega)] at hdeliver'
    obtain ⟨rfl, -⟩ := Prod.mk.inj (Except.ok.inj (hdeliver'.symm.trans hdeliver))
    have hmsgs : msgs = slices s (e.nblocks buf.length - 1) buf := by
      rw [payloads_append, hout₁] at hout
      have hinj := Option.some_injective (List UInt8)
      refine (List.map_injective_iff.mpr hinj) (hout.symm.trans ?_)
      rw [payloads, List.flatten_singleton, List.map_nil, List.append_nil]
    have hshort := hcuts.last
    rw [hmsgs, flatten_slices] at hflat
    have := congrArg List.length hflat
    rw [List.length_take] at this
    omega

/-- With too many data blocks, the buffer is not encoded. -/
theorem Encodes.encodeWith_many (h : e.Encodes blockLen buf.length)
    (hn : 128 < e.nblocks buf.length) : e.encodeWith blockLen buf = .error .table := by
  obtain ⟨s, hcuts, hs, henc⟩ := h.encodeWith
  have hmany := FECEncoder.encodeBlocks_many (e := { e.batchEncoder blockLen buf.length with
      inBlocks := (slices s (e.nblocks buf.length) buf).mapIdx
        (e.batchEncoder blockLen buf.length).filledBlock })
    hcuts.slices_ne_nil length_slices.le h.blockLen_le (length_add_two_le hs) rfl
    (by rw [length_slices]; exact Nat.lt_of_le_of_lt h.nblocks_le (by decide))
    (by rwa [length_slices]) h.nfecblocks_pos (h.nfecblocks_le.trans (by decide))
  rw [henc, hmany]
  rfl

/-! ### Inside the limits -/

/-- The parameters of the encoder of a buffer. -/
def Encodes.params (h : e.Encodes blockLen buf.length) (hn : e.nblocks buf.length ≤ 128)
    (hf : e.nfecblocks buf.length ≤ 128) (hb : 2 ≤ blockLen) : FecParams where
  numBlocks := e.nblocks buf.length
  numFecBlocks := e.nfecblocks buf.length
  maxBlockSize := blockLen
  startSeqNum := e.seqNum
  numBlocks_pos := h.nblocks_pos
  numBlocks_le := hn
  numFecBlocks_pos := h.nfecblocks_pos
  numFecBlocks_le := hf
  two_le_maxBlockSize := hb
  maxBlockSize_le := h.blockLen_le
  startSeqNum_pos := h.seqNum_pos
  startSeqNum_lt := h.seqNum_lt

/-- In the limits of the code, the blocks of a buffer are a sequence. -/
theorem Encodes.exists_sequence (h : e.Encodes blockLen buf.length)
    (hn : e.nblocks buf.length ≤ 128) (hf : e.nfecblocks buf.length ≤ 128) :
    ∃ (P : FecParams) (q : Sequence) (blocks : List FECBlock), P.IsSequence 0 q ∧
      q.nBlocks = e.nblocks buf.length ∧ q.msgs.flatten = buf ∧
      e.encodeWith blockLen buf =
        .ok (blocks, { e with seqNum := FECEncoder.nextSeqNum e.seqNum }) ∧
      List.Forall₂ FECBlock.SentAs blocks q.packets := by
  obtain ⟨s, hcuts, hs, henc⟩ := h.encodeWith
  let P := h.params hn hf (by omega)
  obtain ⟨q, hq, hseq⟩ := P.exists_isSequence 0 hcuts.slices_ne_nil length_slices.le
    (length_add_two_le hs)
  have hnum : q.seqNum = e.seqNum := hseq.seqNum.trans FecParams.seqNumAt_zero
  obtain ⟨sent, hsent, hblocks⟩ := encodeBlocks_spec (P := P) (q := q)
    (e := { e.batchEncoder blockLen buf.length with
      inBlocks := (slices s (e.nblocks buf.length) buf).mapIdx
        (e.batchEncoder blockLen buf.length).filledBlock }) ⟨rfl, rfl, rfl⟩ hnum hseq.nFecBlocks
    hseq.size_le hseq.nBlocks_le (by rw [hq]; rfl)
  rw [hblocks, ok_bind] at henc
  refine ⟨P, q, sent, hseq, ?_, ?_, henc, hsent⟩
  · rw [Sequence.nBlocks, hq, length_slices]
  · rw [hq, hcuts.flatten_slices]

/-- A longest data block carries a longest message. -/
theorem Suffices.keepsLongest {q : Sequence} (h : Suffices q.nBlocks blocks kept)
    (hsent : List.Forall₂ FECBlock.SentAs blocks q.packets)
    (hgot : (kept.map Prod.snd).Sublist (List.range q.nPackets)) :
    Reception.KeepsLongest ⟨q, kept.map Prod.snd, hgot⟩ := by
  have hlength : ∀ (k : ℕ) (b : FECBlock), blocks[k]? = some b → k < q.nBlocks →
      b.length = (q.msg k).length := by
    intro k b hb hk
    rw [FECBlock.length, (FECBlock.sentAs_packet hsent hb).header]
    exact Sequence.length_block hk
  obtain ⟨b, hb, hlt, hmax⟩ := h.largest
  refine ⟨b.2, List.mem_filter.mpr ⟨List.mem_map_of_mem hb, by simpa using hlt⟩, ?_⟩
  refine le_antisymm (le_longest (Sequence.msg_mem hlt)) ?_
  obtain ⟨m, hm, hlong⟩ := exists_longest q.msgs_ne
  obtain ⟨i, hi⟩ := List.mem_iff_getElem?.mp hm
  have hin : i < q.nBlocks := (List.getElem?_eq_some_iff.mp hi).1
  have hblocks : i < blocks.length := by
    rw [hsent.length_eq, Sequence.packets, List.length_map, List.length_range]
    exact Nat.lt_add_right _ hin
  have hget := List.getElem?_eq_getElem hblocks
  obtain rfl : q.msg i = m := Option.some.inj ((Sequence.msg_eq hin).symm.trans hi)
  change longest q.msgs ≤ (q.msg b.2).length
  rw [← hlong, ← hlength i _ hget hin, ← hlength b.2 b.1 (h.getElem? hb) hlt]
  refine hmax _ (List.mem_iff_getElem?.mpr ⟨i, ?_⟩)
  rw [List.getElem?_take_of_lt hin, hget]

theorem Encodes.recovers (h : e.Encodes blockLen buf.length) (hn : e.nblocks buf.length ≤ 128)
    (hf : e.nfecblocks buf.length ≤ 128) : e.RecoversBuffer blockLen buf := by
  obtain ⟨P, q, blocks, hseq, hnBlocks, hflat, henc, hsent⟩ := h.exists_sequence hn hf
  refine ⟨blocks, _, henc, fun kept hkept ↦ ?_⟩
  rw [← hnBlocks] at hkept
  have hlen : blocks.length = q.nPackets := by
    rw [hsent.length_eq, Sequence.packets, List.length_map, List.length_range]
  have hgot : (kept.map Prod.snd).Sublist (List.range q.nPackets) := hlen ▸ hkept.sorted
  let r : Reception := ⟨q, kept.map Prod.snd, hgot⟩
  have hpackets : r.packets = kept.map (·.1.packet) := by
    rw [Reception.packets, List.map_map]
    refine List.map_congr_left fun b hb ↦ ?_
    exact (FECBlock.sentAs_packet hsent (hkept.getElem? hb)).packet.symm
  obtain ⟨outs, d, hrun, hall⟩ := run_receive_longest (P := P) [r]
    (fun j r' hj ↦ by
      cases j with
      | zero =>
          obtain rfl : r = r' := Option.some.inj hj
          exact hseq
      | succ j => simp at hj)
    (fun r' hr' ↦ by
      rw [List.mem_singleton.mp hr']
      exact hkept.keepsLongest hsent hgot)
  obtain ⟨out, d', outs', hreceive, hnil, rfl⟩ := Run.run_cons_eq_ok.mp hrun
  obtain ⟨hout, -⟩ := List.forall₂_cons.mp hall
  rw [FECDecoder.receive, hpackets] at hreceive
  refine ⟨out, d', q.msgs, hreceive, hout ?_, hflat⟩
  change q.nBlocks ≤ (kept.map Prod.snd).length
  rw [List.length_map]
  exact hkept.enough

/-- A buffer of one block needs no code. -/
theorem Encodes.recovers_single (h : e.Encodes blockLen buf.length)
    (hn : e.nblocks buf.length = 1) : e.RecoversBuffer blockLen buf := by
  obtain ⟨s, blocks, recv, hcuts, henc, hsent⟩ := h.exists_sent (hn.trans_le (by decide))
  refine ⟨blocks, _, henc, fun kept hkept ↦ ?_⟩
  have hall : ∀ k ∈ kept.map Prod.snd, FECBlock.ofPacket (recv k).data = .ok (recv k) ∧
      (recv k).HasHeader e.seqNum (u8 k) (e.nblocks buf.length) (e.nfecblocks buf.length) := by
    intro k hk
    obtain ⟨b, hb, rfl⟩ := List.mem_map.mp hk
    exact (hsent.packet b.2 b.1 (hkept.getElem? hb)).2
  have hsorted : (kept.map Prod.snd).Pairwise (· < ·) := List.pairwise_lt_range.sublist hkept.sorted
  obtain ⟨b, hb, hlt, -⟩ := hkept.largest
  have hzero : b.2 = 0 := Nat.lt_one_iff.mp (hn ▸ hlt)
  have hmem : b.2 ∈ kept.map Prod.snd := List.mem_map_of_mem hb
  obtain ⟨-, hpay, hsize⟩ := hsent.data b.2 b.1 (hkept.getElem? hb) hlt
  rw [hsent.map_packet hkept.sublist]
  rw [hzero] at hmem hpay hsize
  generalize kept.map Prod.snd = ks at hall hsorted hmem
  obtain ⟨ks, rfl⟩ : ∃ ks', ks = 0 :: ks' := by
    cases ks with
    | nil => exact absurd hmem List.not_mem_nil
    | cons k ks =>
        rcases List.mem_cons.mp hmem with rfl | hmem
        · exact ⟨ks, rfl⟩
        · exact absurd (List.rel_of_pairwise_cons hsorted hmem) (Nat.not_lt_zero _)
  obtain ⟨hpkt, hheader⟩ := hall 0 List.mem_cons_self
  obtain ⟨d, hdeliver, hd⟩ := (FECDecoder.Gathered.init _ _ _).deliver_data h.seqNum_pos
    h.nfecblocks_pos hpkt hheader h.nblocks_pos fun _ ↦ hsize
  rw [if_pos (by rw [hn]; rfl)] at hd
  obtain ⟨outs, d', hrun, hout⟩ := hd.run (ks.map recv) h.nblocks_pos h.nfecblocks_pos (by
    intro blk hblk
    obtain ⟨k, hk, rfl⟩ := List.mem_map.mp hblk
    obtain ⟨hpkt, hheader⟩ := hall k (List.mem_cons_of_mem _ hk)
    exact ⟨hpkt, _, hheader⟩)
  refine ⟨_, d', slices s 1 buf, Run.run_cons_eq_ok.mpr ⟨_, d, outs, hdeliver, hrun, rfl⟩, ?_, ?_⟩
  · rw [← List.singleton_append, payloads_append, hout]
    exact congrArg (· :: []) hpay
  · rw [← hn, hcuts.flatten_slices]

end Recovery

/-- A buffer is recovered from any blocks that suffice if it has one block, or at most 128 data
blocks and at most 128 FEC blocks, and in no other case. -/
theorem recoversBuffer_iff (e : FECBufferEncoder) (blockLen : ℕ) (buf : List UInt8)
    (h : e.Encodes blockLen buf.length) :
    e.RecoversBuffer blockLen buf ↔ e.nblocks buf.length = 1 ∨
      (e.nblocks buf.length ≤ 128 ∧ e.nfecblocks buf.length ≤ 128) := by
  have hpos := h.nblocks_pos
  constructor
  · intro hrecovers
    by_contra hlimits
    by_cases hn : e.nblocks buf.length ≤ 128
    · exact h.not_recovers_fec (by omega) hn (by omega) hrecovers
    · obtain ⟨blocks, e', henc, -⟩ := hrecovers
      rw [h.encodeWith_many (by omega)] at henc
      cases henc
  · rintro (hone | ⟨hn, hf⟩)
    · exact h.recovers_single hone
    · exact h.recovers hn hf

/-- Three bytes in two blocks. -/
theorem recoversBuffer_three : FECBufferEncoder.RecoversBuffer ⟨2, 1 / 2, 1⟩ 4 [1, 2, 3] := by
  have hn : FECBufferEncoder.nblocks ⟨2, 1 / 2, 1⟩ ([1, 2, 3] : List UInt8).length = 2 := rfl
  have hf : FECBufferEncoder.nfecblocks ⟨2, 1 / 2, 1⟩ ([1, 2, 3] : List UInt8).length = 1 := by
    rw [nfecblocks, hn]
    norm_num
  refine (recoversBuffer_iff _ _ _ ⟨by decide, by decide, by decide, by norm_num, ?_, ?_,
    ?_, by decide, by decide, by decide⟩).mpr (.inr ⟨?_, ?_⟩)
  · rw [hn]; decide
  · rw [hf]; decide
  · decide
  · rw [hn]; decide
  · rw [hf]; decide

/-- Two hundred and fifty-eight bytes in 129 blocks. -/
theorem not_recoversBuffer_many : ¬∀ (e : FECBufferEncoder) (blockLen : ℕ) (buf : List UInt8),
    e.Encodes blockLen buf.length → e.RecoversBuffer blockLen buf := by
  intro hall
  have hn : FECBufferEncoder.nblocks ⟨2, 1 / 2, 1⟩ (List.replicate 258 (0 : UInt8)).length =
      129 := by
    rw [List.length_replicate]
    rfl
  have hf : FECBufferEncoder.nfecblocks ⟨2, 1 / 2, 1⟩ (List.replicate 258 (0 : UInt8)).length =
      65 := by
    rw [nfecblocks, hn]
    norm_num
  have h : FECBufferEncoder.Encodes ⟨2, 1 / 2, 1⟩ 4 (List.replicate 258 (0 : UInt8)).length := by
    refine ⟨?_, by decide, by decide, by norm_num, ?_, ?_, ?_, by decide, by decide, by decide⟩
    · rw [List.length_replicate]
      decide
    · rw [hn]; decide
    · rw [hf]; decide
    · rw [List.length_replicate]
      decide
  obtain ⟨blocks, e', henc, -⟩ := hall _ _ _ h
  rw [h.encodeWith_many (by rw [hn]; decide)] at henc
  cases henc

end FECBufferEncoder

end WfbBridge
