import Mathlib
import WfbBridge.Decoder.Safety
import WfbBridge.Wire

/-!
# The output lies inside the packet

A client of the decoder copies `data_length()` bytes from `data()`.  `decode` compares
the length of a rebuilt block with `m_block_size`, which includes the two bytes of the
length itself; the other ways to the output do not look at the length at all.  So
the copy stays inside the block if the packets that are output as they are have a
length that fits, and no rebuilt block has one of the two lengths in between.

The length of a rebuilt block is not given by any packet, but the packets determine
it: it is part of the coded bytes.  `Lengths` says so with the equations of the code.
-/

namespace WfbBridge

open Checked Fec Gf

/-- `[data(), data() + data_length())` is inside the packet. -/
def FECBlock.Contained (b : FECBlock) : Prop := b.length + fecOverhead ≤ b.pktLength

instance (b : FECBlock) : Decidable b.Contained := inferInstanceAs (Decidable (_ ≤ _))

namespace FECDecoder

/-- The lengths of the data blocks of a sequence of `n`, as far as the blocks at hand tell:
the equations of the code for the two bytes of the length. -/
structure Lengths (d : FECDecoder) (n : ℕ) (len : ℕ → ℕ) : Prop where
  lt : ∀ i < n, len i < 65536
  data : ∀ (i : ℕ) (b : FECBlock), (d.slots n)[i]? = some (some b) → ∀ p < 2,
    byteAt b.fecData p = byteAt (lengthBytes (len i)) p
  fec : ∀ (j : ℕ) (b : FECBlock), j < (erasedIdxs (d.slots n)).length → d.fecBlocks[j]? = some b →
    ∀ p < 2, byteAt b.fecData p =
      ∑ i ∈ Finset.range n, coeff b.fecIdx i * byteAt (lengthBytes (len i)) p

/-- A call of `decode` that rebuilds no block of a length that passes
for too short a block. -/
structure LengthsFit (d : FECDecoder) (n : ℕ) : Prop where
  fits : d.Fits n
  /-- the equations have one solution, -/
  invertible : (toMatrix (resolveMatrix d.fecIdxs (erasedIdxs (d.slots n)))).det ≠ 0
  /-- and in it no missing block is one or two bytes too long for `m_block_size` -/
  lengths : ∃ len, d.Lengths n len ∧ ∀ i < n, i ∉ d.numbers →
    len i + 2 ≤ d.blockSize ∨ d.blockSize < len i

/-- With different FEC blocks, within the limits of the code,
the equations have one solution. -/
theorem Fits.invertible {d : FECDecoder} {n : ℕ} (h : d.Fits n) (hd : d.Held) (hn : n ≤ 128)
    (hnodup : d.fecIdxs.Nodup) :
    (toMatrix (resolveMatrix d.fecIdxs (erasedIdxs (d.slots n)))).det ≠ 0 := by
  obtain ⟨blank, -, hblank, -⟩ := ofHeader_ok {} h.size (h.blockSize_le hd)
  refine det_resolveMatrix_ne_zero (h.decodeArgs hd (by omega) hblank) ?_ hnodup
  rw [List.length_map, List.length_map, (d.slots_spec n).1]
  exact hn

/-! ## Rebuilt blocks -/

/-- The length is written with the coded bytes. -/
theorem length_write {b : FECBlock} {y : List UInt8} {len : ℕ} (hlen : len < 65536)
    (h2 : 2 ≤ y.length) (hy : ∀ p < 2, byteAt y p = byteAt (lengthBytes len) p) :
    (b.write (fecOverhead - 2) y).length = len := by
  obtain ⟨y₀, y₁, y, rfl⟩ : ∃ y₀ y₁ y', y = y₀ :: y₁ :: y' := by
    match y, h2 with
    | y₀ :: y₁ :: y, _ => exact ⟨y₀, y₁, y, rfl⟩
  have h₀ : y₀ = UInt8.ofNat len := toGf_injective (hy 0 (by decide))
  have h₁ : y₁ = UInt8.ofNat (len / 256) := toGf_injective (hy 1 (by decide))
  have htake : (b.data.take (fecOverhead - 2)).length = 4 := by
    have := b.header_le
    rw [List.length_take]
    simp only [fecOverhead] at this ⊢
    omega
  obtain ⟨c₀, c₁, c₂, c₃, htake⟩ := List.length_eq_four.mp htake
  simp only [FECBlock.length, FECBlock.header, FECBlock.byte, FECBlock.data_write, htake]
  change y₀.toNat + 256 * y₁.toNat = len
  rw [h₀, h₁]
  exact lengthBytes_toNat hlen

section Released

variable {d : FECDecoder} {n : ℕ} {blank : FECBlock} {bytes : List (List UInt8)} {i : ℕ}
  {y : List UInt8}

theorem getElem?_filled (blank : FECBlock) (i : ℕ) :
    ((d.slots n).map fun b ↦ b.getD blank)[i]? = (d.slots n)[i]?.map fun b ↦ b.getD blank :=
  List.getElem?_map

/-- A block that arrived is released as it is, and its length is below `m_block_size`. -/
theorem Fits.contained_received (h : d.Fits n) (hd : d.Held) {b : FECBlock}
    (hslot : (d.slots n)[i]? = some (some b)) (hlen : b.length ≤ d.blockSize) : b.Contained := by
  have hmem := List.mem_of_getElem? hslot
  have hpkt := h.data _ hmem b rfl
  have hsize := hd.blockSize b (mem_blocks_of_mem_slots hmem rfl)
  have hle := h.blockSize_le hd
  rw [FECBlock.blockSize, u16_of_lt (by omega)] at hsize
  rw [FECBlock.Contained, fecOverhead]
  omega

/-- The coded bytes of a rebuilt block start with its length. -/
theorem LengthsFit.byteAt_rebuilt (h : d.LengthsFit n) (hd : d.Held) (hn : n ≤ 256)
    (hblank : blank.data.length = d.blockSize + 4)
    (hdec : fecDecode d.blockSize (((d.slots n).map fun b ↦ b.getD blank).map FECBlock.fecData)
      (d.fecBlocks.map FECBlock.fecData) d.fecIdxs (erasedIdxs (d.slots n)) = .ok bytes)
    (hi : i < n) (hnum : i ∉ d.numbers) (hy : bytes[i]? = some y) :
    y.length = d.blockSize ∧ ∃ len, len < 65536 ∧ (len + 2 ≤ d.blockSize ∨ d.blockSize < len) ∧
      ∀ p < 2, byteAt y p = byteAt (lengthBytes len) p := by
  obtain ⟨len, hlens, hfit⟩ := h.lengths
  have hargs := h.fits.decodeArgs hd hn hblank
  obtain ⟨bytes', hdec', hblocks⟩ := fecDecode_spec hargs
  obtain rfl := Except.ok.inj (hdec'.symm.trans hdec)
  obtain ⟨row, hrow, hidx⟩ := List.mem_iff_getElem.mp (mem_erasedIdxs.mpr ⟨hi, hnum⟩)
  have hslot := ((d.slots_spec n).2 i hi).1 hnum
  have hx : (((d.slots n).map fun b ↦ b.getD blank).map FECBlock.fecData)[i]? =
      some blank.fecData := by
    rw [List.getElem?_map, getElem?_filled, hslot]
    rfl
  have hov := hblocks.row ⟨row, hrow⟩ (List.mem_finRange _) blank.fecData y
    (by simpa only [List.get_eq_getElem, hidx] using hx)
      (by simpa only [List.get_eq_getElem, hidx] using hy)
  refine ⟨?_, len i, hlens.lt i hi, hfit i hi hnum, fun p hp ↦ ?_⟩
  · rw [hov.length, FECBlock.fecData, List.length_drop, hblank]
    simp only [fecOverhead]
    omega
  have hcode : EncodesAt (((d.slots n).map fun b ↦ b.getD blank).map FECBlock.fecData)
      (d.fecBlocks.map FECBlock.fecData) d.fecIdxs (erasedIdxs (d.slots n)) p
      (fun i ↦ byteAt (lengthBytes (len i)) p) := by
    have hlen : (((d.slots n).map fun b ↦ b.getD blank).map FECBlock.fecData).length = n := by
      rw [List.length_map, List.length_map, (d.slots_spec n).1]
    refine ⟨fun k hk hne ↦ ?_, fun j hj ↦ ?_⟩
    · rw [hlen] at hk
      have hknum : k ∈ d.numbers := by
        by_contra hnot
        exact hne (mem_erasedIdxs.mpr ⟨hk, hnot⟩)
      obtain ⟨b, -, -, hget⟩ := ((d.slots_spec n).2 k hk).2 hknum
      rw [blockByte_of_getElem? (b := b.fecData), hlens.data k b hget p hp]
      rw [List.getElem?_map, getElem?_filled, hget]
      rfl
    · have hj' : j < d.fecBlocks.length := by
        have := hargs.fec_length
        rw [List.length_map] at this
        omega
      have hget := List.getElem?_eq_getElem hj'
      rw [blockByte_of_getElem? (b := d.fecBlocks[j].fecData)
        (by rw [List.getElem?_map, hget]; rfl), hlens.fec j _ hj hget p hp, hlen, fecIdxs,
        List.getD_eq_getElem?_getD, List.getElem?_map, hget]
      rfl
  have hp' : p < d.blockSize := hp.trans_le h.fits.size
  rw [hov.at_lt p hp', hcode.resolved hargs h.invertible ⟨row, hrow⟩]
  simp only [List.get_eq_getElem, hidx]

/-- What `decode` releases is contained in its packet. -/
theorem contained_released (hd : d.Held) (h : d.WhenChecked LengthsFit) {o : List (FECBlock × ℕ)}
    (ho : d.released = .ok o) : ∀ x ∈ o, x.1.Contained := by
  have hfits : d.WhenChecked Fits := fun b hb hcheck ↦ (h b hb hcheck).fits
  rcases released_cases hd hfits with hnil | ⟨b, first, blocks, hb, hcheck, hblocks, hrel⟩
  · obtain rfl := Except.ok.inj (hnil.symm.trans ho)
    exact fun x hx ↦ absurd hx List.not_mem_nil
  have hlens := h b hb hcheck
  obtain ⟨blank, first', bytes, hblank, hpkt, hdec, hblocks'⟩ :=
    hlens.fits.decodeBlocks hd rfl (nBlocks_le b)
  obtain ⟨rfl, rfl⟩ := Prod.mk.inj (Except.ok.inj (hblocks'.symm.trans hblocks))
  obtain rfl := Except.ok.inj (hrel.symm.trans ho)
  rintro ⟨blk, i⟩ hx
  obtain ⟨hx, hle⟩ := List.mem_filter.mp hx
  have hget := List.mem_zipIdx_iff_getElem?.mp (List.mem_of_mem_drop hx)
  obtain ⟨c, y, hc, hy, rfl⟩ := List.getElem?_zipWith_eq_some.mp hget
  have hi : i < b.header.nBlocks := by
    have := (List.getElem?_eq_some_iff.mp hc).1
    rwa [List.length_map, (d.slots_spec _).1] at this
  rw [getElem?_filled] at hc
  by_cases hnum : i ∈ d.numbers
  · obtain ⟨c', -, -, hslot⟩ := ((d.slots_spec _).2 i hi).2 hnum
    rw [hslot] at hc
    obtain rfl : c' = c := by simpa using hc
    have hsame := (fecDecode_frame hdec).2.1 i fun he ↦ (mem_erasedIdxs.mp he).2 hnum
    rw [hy, List.getElem?_map, getElem?_filled, hslot] at hsame
    obtain rfl : y = c'.fecData := by simpa using hsame
    rw [FECBlock.write_fecData] at hle ⊢
    exact hlens.fits.contained_received hd hslot (of_decide_eq_true hle)
  · rw [((d.slots_spec _).2 i hi).1 hnum] at hc
    obtain rfl : blank = c := by simpa using hc
    obtain ⟨hylen, len, hlt, hfit, hbytes⟩ :=
      hlens.byteAt_rebuilt hd (nBlocks_le b) hblank hdec hi hnum hy
    have hlength : (blank.write (fecOverhead - 2) y).length = len :=
      length_write hlt (by rw [hylen]; exact hlens.fits.size) hbytes
    have hle' := of_decide_eq_true hle
    have hpkt' : (blank.write (fecOverhead - 2) y).pktLength = d.blockSize + 4 := hpkt
    rw [FECBlock.Contained, hlength, hpkt', fecOverhead]
    rw [hlength] at hle'
    omega

end Released

/-! ## All packets -/

/-- A packet after which the output lies inside the packets. -/
structure Contains (d : FECDecoder) (pkt : List UInt8) : Prop where
  header : fecOverhead ≤ u16 pkt.length
  /-- a packet that is output as it is has a length that fits -/
  released : ∀ blk, FECBlock.ofPacket pkt = .ok blk → d.Releases blk → blk.Contained
  rebuilt : d.WhenDecoding (WhenChecked LengthsFit) pkt

end FECDecoder

/-- On any packets that are long enough for their header, all blocks the decoder outputs
have their data inside the packet, if the packets that are output as they are do, and
no block is rebuilt with a length that is one or two bytes too long. -/
theorem decoder_output_contained (pkts : List (List UInt8))
    (h : Run.Along FECDecoder.deliver FECDecoder.Contains {} pkts) :
    ∃ outs d, Run.run FECDecoder.deliver {} pkts = .ok (outs, d) ∧
      ∀ out ∈ outs, ∀ x ∈ out, x.1.Contained := by
  obtain ⟨outs, d, hrun, -, hout⟩ := Run.run_inv_of_along h
    (fun _ outs d ↦ d.Held ∧ ∀ out ∈ outs, ∀ x ∈ out, x.1.Contained) ⟨.fresh, by simp⟩ (by
      rintro pre pkt outs d - ⟨hd, houts⟩ hpkt
      obtain ⟨blk, out, d', hblk, -, hdeliver, hheld, hx⟩ := hd.deliver hpkt.header
        fun blk d' hblk hdec b hb hcheck ↦ (hpkt.rebuilt blk d' hblk hdec b hb hcheck).fits
      refine ⟨out, d', hdeliver, hheld, fun out' hout' x hx' ↦ ?_⟩
      rcases List.mem_append.mp hout' with hout' | hout'
      · exact houts out' hout' x hx'
      obtain rfl := List.mem_singleton.mp hout'
      rcases hx x hx' with ⟨hrel, hxblk⟩ | ⟨d₁, o, hdec, hheld₁, ho, hxo⟩
      · rw [hxblk]
        exact hpkt.released blk hblk hrel
      · exact FECDecoder.contained_released hheld₁ (hpkt.rebuilt blk d₁ hblk hdec) ho x hxo)
  exact ⟨outs, d, hrun, hout⟩

/-- The messages `7` and `9`, of which the second is lost and rebuilt. -/
theorem decoder_output_contained_one_loss :
    ∃ outs d, Run.run FECDecoder.deliver {} [[1, 0, 2, 1, 1, 0, 7], [1, 2, 2, 1, 79, 0, 143]] =
      .ok (outs, d) ∧ ∀ out ∈ outs, ∀ x ∈ out, x.1.Contained := by
  let b₀ : FECBlock := ⟨[1, 0, 2, 1, 1, 0, 7], 7, by decide⟩
  let b₁ : FECBlock := ⟨[1, 2, 2, 1, 79, 0, 143], 7, by decide⟩
  let d₁ : FECDecoder :=
    { blockSize := 3
      prevHeader := b₀.header
      blocks := [b₀]
      stats := { totalPackets := 1, bytes := 7 } }
  let d₂ : FECDecoder :=
    { d₁ with
      prevHeader := b₁.header
      fecBlocks := [b₁]
      stats := { totalPackets := 2, droppedPackets := 1, bytes := 14 } }
  have hheld : d₂.Held := by
    have hwhole : b₀.Whole ∧ b₁.Whole := ⟨⟨rfl, by decide⟩, ⟨rfl, by decide⟩⟩
    refine ⟨?_, ?_, ?_, rfl⟩
    · simpa [d₂, d₁] using hwhole.1
    · simpa [d₂, d₁] using hwhole.2
    · intro b hb
      rw [List.mem_singleton.mp hb]
      decide
  have hfits : d₂.Fits 2 := by decide +kernel
  have hslots : d₂.slots 2 = [some b₀, none] := by decide +kernel
  have herased : (FECDecoder.erasedIdxs (d₂.slots 2)).length = 1 := by decide +kernel
  have hlengths : d₂.LengthsFit 2 := by
    refine ⟨hfits, hfits.invertible hheld (by decide) (by decide), fun _ ↦ 1, ⟨by decide, ?_, ?_⟩,
      by decide⟩
    · intro i b hb
      rw [hslots] at hb
      match i, hb with
      | 0, hb =>
          obtain rfl : b₀ = b := by simpa using hb
          decide
      | 1, hb => exact absurd hb (by simp)
      | i + 2, hb => exact absurd hb (by simp)
    · intro j b hj hb
      rw [herased] at hj
      obtain rfl : j = 0 := by omega
      obtain rfl : b₁ = b := Option.some.inj hb
      decide +kernel
  refine decoder_output_contained _ ⟨⟨by decide, ?_, ?_⟩, fun out d hd ↦ ⟨⟨by decide, ?_, ?_⟩,
    fun _ _ _ ↦ trivial⟩⟩
  · rintro blk hblk -
    obtain rfl : b₀ = blk := Except.ok.inj hblk
    decide
  · rintro blk d hblk hdec
    obtain rfl : b₀ = blk := Except.ok.inj hblk
    have hnone : FECDecoder.decoding {} b₀ = none := by decide +kernel
    exact absurd (hnone.symm.trans hdec) (by simp)
  · rintro blk hblk hrel
    obtain rfl : b₁ = blk := Except.ok.inj hblk
    have hd₁ : FECDecoder.deliver {} [1, 0, 2, 1, 1, 0, 7] = .ok ([(b₀, 0)], d₁) := by
      decide +kernel
    obtain ⟨-, rfl⟩ := Prod.mk.inj (Except.ok.inj (hd₁.symm.trans hd))
    exact absurd hrel.1 (by decide)
  · rintro blk d' hblk hdec b hb -
    obtain rfl : b₁ = blk := Except.ok.inj hblk
    have hd₁ : FECDecoder.deliver {} [1, 0, 2, 1, 1, 0, 7] = .ok ([(b₀, 0)], d₁) := by
      decide +kernel
    obtain ⟨-, rfl⟩ := Prod.mk.inj (Except.ok.inj (hd₁.symm.trans hd))
    have hd₂ : d₁.decoding b₁ = some d₂ := by decide +kernel
    obtain rfl := Option.some.inj (hd₂.symm.trans hdec)
    obtain rfl : b₀ = b := Option.some.inj hb
    exact hlengths

/-- FEC is off in the header, and the length is larger than the packet. -/
theorem oversized_length_released :
    ∃ outs d, Run.run FECDecoder.deliver {} [[1, 0, 0, 0, 255, 0]] = .ok (outs, d) ∧
      ∃ out ∈ outs, ∃ x ∈ out, ¬ x.1.Contained := by
  let b : FECBlock := ⟨[1, 0, 0, 0, 255, 0], 6, by decide⟩
  have hrun : Run.run FECDecoder.deliver {} [[1, 0, 0, 0, 255, 0]] =
      .ok ([[(b, 0)]], { prevHeader := b.header, stats := { totalPackets := 1, bytes := 6 } }) := by
    decide +kernel
  exact ⟨_, _, hrun, _, List.mem_cons_self, _, List.mem_cons_self, by decide⟩

end WfbBridge
