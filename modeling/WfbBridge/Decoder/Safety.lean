import Mathlib
import WfbBridge.Decoder.Phase
import WfbBridge.Fec.Recover

/-!
# The decoder on arbitrary packets

No assumption is made on the packets here.  `addPacket_cases` says what `add_block`
can do with one, and `Held` is what is always true of the working set.  `Fits` is
what a call of `decode` needs to stay inside its buffers: `decode` takes the number
of blocks from the first block it holds, and the numbers and lengths from all of
them.
-/

namespace WfbBridge

open Checked Fec

/-- A block made from a packet. -/
structure FECBlock.Whole (b : FECBlock) : Prop where
  length_data : b.data.length = b.pktLength
  pktLength_lt : b.pktLength < 65536

theorem FECBlock.Whole.ofPacket {buf : List UInt8} {b : FECBlock}
    (h : FECBlock.ofPacket buf = .ok b) :
    b.Whole := by
  rw [FECBlock.ofPacket] at h
  split at h
  case isTrue hle =>
    obtain rfl := Except.ok.inj h
    refine ⟨?_, Nat.mod_lt _ (by decide)⟩
    rw [List.length_take]
    exact Nat.min_eq_left (Nat.mod_le _ _)
  case isFalse => exact absurd h (by simp)

theorem FECBlock.Whole.length_fecData {b : FECBlock} (h : b.Whole) :
    b.fecData.length = b.pktLength - 4 := by
  rw [FECBlock.fecData, List.length_drop, h.length_data]
  rfl

namespace FECDecoder

/-- What is always true of the working set. -/
structure Held (d : FECDecoder) : Prop where
  blocks : ∀ b ∈ d.blocks, b.Whole
  fecBlocks : ∀ b ∈ d.fecBlocks, b.Whole
  blockSize : ∀ b ∈ d.blocks, b.blockSize ≤ d.blockSize
  outBlocks : d.outBlocks = []

theorem Held.fresh : ({} : FECDecoder).Held := ⟨by simp, by simp, by simp, rfl⟩

/-! ## One packet -/

/-- The packet is put into the output as it is: FEC is off, or it is a data block after
which there is no gap. -/
def Releases (d : FECDecoder) (blk : FECBlock) : Prop :=
  let h := blk.header
  if h.nBlocks = 0 ∨ h.nFecBlocks = 0 then True
  else
    match (d.countPacket blk.pktLength).enterSequence h with
    | none => False
    | some d => blk.isDataBlock ∧ d.blocks.length = h.block

/-- A packet is handled with the working set as it is, or with an empty one. -/
structure EntersAs (d d₀ : FECDecoder) : Prop where
  outBlocks : d₀.outBlocks = d.outBlocks
  workingSet : d₀.blockSize = d.blockSize ∧ d₀.blocks = d.blocks ∧ d₀.fecBlocks = d.fecBlocks ∨
    d₀.blockSize = 0 ∧ d₀.blocks = [] ∧ d₀.fecBlocks = []

theorem EntersAs.held {d d₀ : FECDecoder} (h : d.EntersAs d₀) (hd : d.Held) : d₀.Held := by
  obtain ⟨hout, ⟨hsize, hblocks, hfec⟩ | ⟨hsize, hblocks, hfec⟩⟩ := h
  · exact ⟨hblocks ▸ hd.blocks, hfec ▸ hd.fecBlocks, by rw [hblocks, hsize]; exact hd.blockSize,
      hout.trans hd.outBlocks⟩
  · exact ⟨by simp [hblocks], by simp [hfec], by simp [hblocks], hout.trans hd.outBlocks⟩

theorem entersAs_enterSequence {d d' : FECDecoder} {h : FECHeader} (n : ℕ)
    (henter : (d.countPacket n).enterSequence h = some d') :
    d.EntersAs ({ d' with prevHeader := h }.countSkipped h) := by
  have hskip : d.EntersAs d' → d.EntersAs ({ d' with prevHeader := h }.countSkipped h) := by
    intro hd'
    rw [FECDecoder.countSkipped]
    split
    · exact ⟨hd'.outBlocks, hd'.workingSet⟩
    · exact ⟨hd'.outBlocks, hd'.workingSet⟩
  refine hskip ?_
  simp only [FECDecoder.enterSequence] at henter
  split_ifs at henter
  · obtain rfl := Option.some.inj henter
    refine ⟨?_, .inr ⟨rfl, rfl, rfl⟩⟩
    simp only [FECDecoder.reset, FECDecoder.countBreak]
    split_ifs <;> rfl
  · obtain rfl := Option.some.inj henter
    exact ⟨rfl, .inl ⟨rfl, rfl, rfl⟩⟩
  · obtain rfl := Option.some.inj henter
    exact ⟨rfl, .inl ⟨rfl, rfl, rfl⟩⟩
  · obtain rfl := Option.some.inj henter
    exact ⟨rfl, .inl ⟨rfl, rfl, rfl⟩⟩

/-- What `add_block` can do with a packet. -/
theorem addPacket_cases (d : FECDecoder) (blk : FECBlock) :
    -- FEC is off
    (d.addPacket blk = .ok ((d.countPacket blk.pktLength).passThrough blk) ∧
      d.decoding blk = none ∧ d.Releases blk) ∨
    -- the sequence is over
    (d.addPacket blk = .ok { d.countPacket blk.pktLength with prevHeader := blk.header } ∧
      d.decoding blk = none) ∨
    ∃ d₀, d.EntersAs d₀ ∧
      -- a data block
      ((d.addPacket blk = .ok (d₀.addDataBlock blk) ∧ d.decoding blk = none ∧
        (d₀.blocks.length = blk.header.block → d.Releases blk)) ∨
      -- an FEC block, with fewer or more blocks than are needed
      (d.addPacket blk = .ok { d₀ with fecBlocks := d₀.fecBlocks ++ [blk] } ∧
        d.decoding blk = none) ∨
      -- the FEC block that makes `decode` run
      (d.addPacket blk = (do
          let d ← decode { d₀ with fecBlocks := d₀.fecBlocks ++ [blk] }
          .ok d.complete) ∧
        d.decoding blk = some { d₀ with fecBlocks := d₀.fecBlocks ++ [blk] })) := by
  by_cases hoff : blk.header.nBlocks = 0 ∨ blk.header.nFecBlocks = 0
  · exact .inl ⟨if_pos hoff, if_pos hoff, by rw [Releases]; exact (if_pos hoff).mpr trivial⟩
  cases henter : (d.countPacket blk.pktLength).enterSequence blk.header with
  | none =>
      refine .inr (.inl ⟨?_, ?_⟩)
      · simp only [addPacket, if_neg hoff, henter]
      · simp only [decoding, if_neg hoff, henter]
  | some d' =>
      refine .inr (.inr ⟨_, entersAs_enterSequence _ henter, ?_⟩)
      have hblocks : ({ d' with prevHeader := blk.header }.countSkipped blk.header).blocks =
          d'.blocks := by
        rw [FECDecoder.countSkipped]
        split <;> rfl
      by_cases hdata : blk.isDataBlock
      · refine .inl ⟨?_, ?_, fun hlen ↦ ?_⟩
        · simp only [addPacket, if_neg hoff, henter, if_pos hdata]
        · simp only [decoding, if_neg hoff, henter, hdata, not_true_eq_false, false_and, if_false]
        · simp only [Releases, if_neg hoff, henter]
          exact ⟨hdata, by rwa [hblocks] at hlen⟩
      · refine .inr ?_
        simp only [addPacket, if_neg hoff, henter, decoding, hdata, not_false_eq_true, true_and,
          addFecBlock]
        by_cases hcount :
            ({ d' with prevHeader := blk.header }.countSkipped blk.header).blocks.length +
              (({ d' with prevHeader := blk.header }.countSkipped blk.header).fecBlocks ++
                [blk]).length = blk.header.nBlocks
        · exact .inr ⟨if_pos hcount, if_pos hcount⟩
        · exact .inl ⟨if_neg hcount, if_neg hcount⟩

/-! ## The slots of `decode` -/

section Slots

variable {d : FECDecoder} {n : ℕ}

variable (d) in
/-- The numbers of the data blocks at hand. -/
def numbers : Finset ℕ := (d.blocks.map fun b ↦ b.header.block).toFinset

theorem mem_numbers {i : ℕ} : i ∈ d.numbers ↔ ∃ b ∈ d.blocks, b.header.block = i := by
  simp [numbers]

/-- A slot holds a block with its number, and is empty if there is none. -/
theorem slots_spec (d : FECDecoder) (n : ℕ) : (d.slots n).length = n ∧ ∀ i < n,
    (i ∉ d.numbers → (d.slots n)[i]? = some none) ∧
    (i ∈ d.numbers → ∃ b ∈ d.blocks, b.header.block = i ∧ (d.slots n)[i]? = some (some b)) := by
  obtain ⟨_, _, blocks, _, _, _⟩ := d
  simp only [slots, mem_numbers]
  induction blocks using List.reverseRecOn with
  | nil =>
      refine ⟨List.length_replicate, fun i hi ↦ ⟨fun _ ↦ ?_, fun h ↦ absurd h (by simp)⟩⟩
      rw [List.foldl_nil, List.getElem?_replicate, if_pos hi]
  | append_singleton blocks b ih =>
      obtain ⟨hlen, hslot⟩ := ih
      rw [List.foldl_append, List.foldl_cons, List.foldl_nil]
      refine ⟨by rw [List.length_set, hlen], fun i hi ↦ ?_⟩
      by_cases hbi : b.header.block = i
      · subst hbi
        refine ⟨fun h ↦ absurd ⟨b, by simp, rfl⟩ h, fun _ ↦ ⟨b, by simp, rfl, ?_⟩⟩
        rw [List.getElem?_set_self (by rwa [hlen])]
      · rw [List.getElem?_set_ne hbi]
        obtain ⟨hnone, hsome⟩ := hslot i hi
        refine ⟨fun h ↦ hnone fun ⟨c, hc, hci⟩ ↦ h ⟨c, List.mem_append_left _ hc, hci⟩, ?_⟩
        rintro ⟨c, hc, hci⟩
        have hc' : c ∈ blocks := by
          rcases List.mem_append.mp hc with hc | hc
          · exact hc
          · exact absurd (List.mem_singleton.mp hc ▸ hci) hbi
        obtain ⟨c', hmem, hnum, hget⟩ := hsome ⟨c, hc', hci⟩
        exact ⟨c', List.mem_append_left _ hmem, hnum, hget⟩

/-- A slot holds one of the data blocks. -/
theorem mem_blocks_of_mem_slots {slot : Option FECBlock} {b : FECBlock} (hslot : slot ∈ d.slots n)
    (hb : b ∈ slot) : b ∈ d.blocks := by
  obtain ⟨hlen, hslots⟩ := d.slots_spec n
  obtain ⟨i, hi⟩ := List.mem_iff_getElem?.mp hslot
  obtain rfl := Option.mem_def.mp hb
  have hlt : i < n := by
    rw [← hlen]
    exact (List.getElem?_eq_some_iff.mp hi).1
  by_cases hnum : i ∈ d.numbers
  · obtain ⟨c, hc, -, hget⟩ := (hslots i hlt).2 hnum
    obtain rfl : b = c := by simpa using hi.symm.trans hget
    exact hc
  · exact absurd (hi.symm.trans ((hslots i hlt).1 hnum)) (by simp)

theorem mem_erasedIdxs {i : ℕ} : i ∈ erasedIdxs (d.slots n) ↔ i < n ∧ i ∉ d.numbers := by
  obtain ⟨hlen, hslot⟩ := d.slots_spec n
  rw [erasedIdxs, List.mem_filter, List.mem_range, hlen, decide_eq_true_eq]
  refine and_congr_right fun hi ↦ ⟨fun h hmem ↦ ?_, (hslot i hi).1⟩
  obtain ⟨b, -, -, hget⟩ := (hslot i hi).2 hmem
  exact absurd (h.symm.trans hget) (by simp)

theorem sorted_erasedIdxs (v : List (Option FECBlock)) : (erasedIdxs v).Pairwise (· < ·) :=
  List.pairwise_lt_range.filter _

theorem length_erasedIdxs (hindex : ∀ b ∈ d.blocks, b.header.block < n) :
    (erasedIdxs (d.slots n)).length + d.numbers.card = n := by
  have hnodup : (erasedIdxs (d.slots n)).Nodup :=
    (sorted_erasedIdxs _).imp fun h ↦ Nat.ne_of_lt h
  have hset : (erasedIdxs (d.slots n)).toFinset = Finset.range n \ d.numbers := by
    ext i
    rw [List.mem_toFinset, mem_erasedIdxs, Finset.mem_sdiff, Finset.mem_range]
  have hsub : d.numbers ⊆ Finset.range n := by
    intro i hi
    obtain ⟨b, hb, rfl⟩ := mem_numbers.mp hi
    exact Finset.mem_range.mpr (hindex b hb)
  rw [← List.toFinset_card_of_nodup hnodup, hset, Finset.card_sdiff_add_card_eq_card hsub,
    Finset.card_range]

end Slots

/-! ## The call of `fec_decode` -/

/-- What `decode` needs to stay inside its buffers,
with `n` the `n_blocks` of the first block it holds. -/
structure Fits (d : FECDecoder) (n : ℕ) : Prop where
  /-- no data block has a number past the end of `blocks` -/
  index : ∀ b ∈ d.blocks, b.header.block < n
  /-- a data block is missing, -/
  missing : d.numbers.card < n
  /-- and there is an FEC block for each missing one -/
  enough : n ≤ d.numbers.card + d.fecBlocks.length
  /-- the numbers of the FEC blocks are in the range of the code -/
  fecIdx : ∀ b ∈ d.fecBlocks, b.fecIdx < 128
  /-- the length field fits into a block, -/
  size : 2 ≤ d.blockSize
  /-- and every packet is long enough for `m_block_size` -/
  data : ∀ slot ∈ d.slots n, ∀ b ∈ slot, d.blockSize + 4 ≤ b.pktLength
  fec : ∀ b ∈ d.fecBlocks, d.blockSize + 4 ≤ b.pktLength

instance (d : FECDecoder) (n : ℕ) : Decidable (d.Fits n) :=
  decidable_of_iff ((∀ b ∈ d.blocks, b.header.block < n) ∧ d.numbers.card < n ∧
      n ≤ d.numbers.card + d.fecBlocks.length ∧ (∀ b ∈ d.fecBlocks, b.fecIdx < 128) ∧
      2 ≤ d.blockSize ∧ (∀ slot ∈ d.slots n, ∀ b ∈ slot, d.blockSize + 4 ≤ b.pktLength) ∧
      ∀ b ∈ d.fecBlocks, d.blockSize + 4 ≤ b.pktLength)
    ⟨fun ⟨h₁, h₂, h₃, h₄, h₅, h₆, h₇⟩ ↦ ⟨h₁, h₂, h₃, h₄, h₅, h₆, h₇⟩,
      fun h ↦ ⟨h.index, h.missing, h.enough, h.fecIdx, h.size, h.data, h.fec⟩⟩

theorem ofHeader_ok (h : FECHeader) {sz : ℕ} (h2 : 2 ≤ sz) (hle : sz ≤ 65531) :
    ∃ b, FECBlock.ofHeader h sz = .ok b ∧ b.data.length = sz + 4 ∧ b.pktLength = sz + 4 := by
  have hsize : u16 (sz + fecOverhead - 2) = sz + 4 := u16_of_lt (by simp only [fecOverhead]; omega)
  rw [FECBlock.ofHeader, hsize, FECBlock.zeroed, dif_pos (by simp only [fecOverhead]; omega)]
  refine ⟨_, rfl, ?_, rfl⟩
  simp only [List.length_append, FECHeader.length_bytes, List.length_replicate, fecOverhead]
  omega

section Fits

variable {d : FECDecoder} {n : ℕ}

theorem Fits.blockSize_le (h : d.Fits n) (hd : d.Held) : d.blockSize ≤ 65531 := by
  have hpos : 0 < d.fecBlocks.length := by
    have := h.missing
    have := h.enough
    omega
  obtain ⟨b, hb⟩ := List.exists_mem_of_length_pos hpos
  have := h.fec b hb
  have := (hd.fecBlocks b hb).pktLength_lt
  omega

theorem Fits.decodeArgs (h : d.Fits n) (hd : d.Held) (hn : n ≤ 256) {blank : FECBlock}
    (hblank : blank.data.length = d.blockSize + 4) :
    DecodeArgs d.blockSize (((d.slots n).map fun b ↦ b.getD blank).map FECBlock.fecData)
      (d.fecBlocks.map FECBlock.fecData) d.fecIdxs (erasedIdxs (d.slots n)) where
  fec_length := by
    have := length_erasedIdxs h.index
    have := h.enough
    rw [List.length_map]
    omega
  nos_length := by rw [fecIdxs, List.length_map, List.length_map]
  nos_lt := by
    intro no hno
    obtain ⟨b, hb, rfl⟩ := List.mem_map.mp hno
    exact h.fecIdx b hb
  data_length := by
    rw [List.length_map, List.length_map, (d.slots_spec n).1]
    exact hn
  sorted := sorted_erasedIdxs _
  erased_lt := by
    intro e he
    rw [List.length_map, List.length_map, (d.slots_spec n).1]
    exact (mem_erasedIdxs.mp he).1
  data_bytes := by
    intro x hx
    obtain ⟨b, hb, rfl⟩ := List.mem_map.mp hx
    obtain ⟨slot, hslot, rfl⟩ := List.mem_map.mp hb
    cases slot with
    | none =>
        rw [Option.getD_none, FECBlock.fecData, List.length_drop, hblank]
        simp only [fecOverhead]
        omega
    | some b =>
        have hmem := mem_blocks_of_mem_slots hslot rfl
        have := h.data _ hslot b rfl
        rw [Option.getD_some, (hd.blocks b hmem).length_fecData]
        omega
  fec_bytes := by
    intro x hx
    obtain ⟨b, hb, rfl⟩ := List.mem_map.mp hx
    have := h.fec b hb
    rw [(hd.fecBlocks b hb).length_fecData]
    omega

/-- `decode` up to the call of `fec_decode`, and the call. -/
theorem Fits.decodeBlocks (h : d.Fits n) (hd : d.Held) {hdr : FECHeader} (hn : hdr.nBlocks = n)
    (hn' : n ≤ 256) : ∃ (blank : FECBlock) (first : ℕ) (bytes : List (List UInt8)),
      blank.data.length = d.blockSize + 4 ∧ blank.pktLength = d.blockSize + 4 ∧
      fecDecode d.blockSize (((d.slots n).map fun b ↦ b.getD blank).map FECBlock.fecData)
        (d.fecBlocks.map FECBlock.fecData) d.fecIdxs (erasedIdxs (d.slots n)) = .ok bytes ∧
      d.decodeBlocks hdr = .ok (first, List.zipWith (fun b bytes ↦ b.write (fecOverhead - 2) bytes)
        ((d.slots n).map fun b ↦ b.getD blank) bytes) := by
  subst hn
  obtain ⟨blank, hblank, hdata, hpkt⟩ := ofHeader_ok hdr h.size (h.blockSize_le hd)
  obtain ⟨bytes, hdec, -⟩ := fecDecode_spec (h.decodeArgs hd hn' hdata)
  have hindex : ¬ ∃ b ∈ d.blocks, hdr.nBlocks ≤ b.header.block := by
    rintro ⟨b, hb, hle⟩
    have := h.index b hb
    omega
  obtain ⟨first, rest, herased⟩ : ∃ first rest,
      erasedIdxs (d.slots hdr.nBlocks) = first :: rest := by
    refine List.exists_cons_of_ne_nil fun hnil ↦ ?_
    have hlen := length_erasedIdxs h.index
    rw [hnil, List.length_nil] at hlen
    have := h.missing
    omega
  refine ⟨blank, first, bytes, hdata, hpkt, hdec, ?_⟩
  rw [herased] at hdec
  simp only [FECDecoder.decodeBlocks, if_neg hindex, herased, hblank, ok_bind, hdec]

end Fits

/-- `decode` passes its own checks, with `b` the first block it holds. -/
def Checks (d : FECDecoder) (b : FECBlock) : Prop :=
  b.header.nBlocks ≤ d.blocks.length + d.fecBlocks.length ∧
    ¬ (b.header.nBlocks = 0 ∨ b.header.nFecBlocks = 0)

instance (d : FECDecoder) (b : FECBlock) : Decidable (d.Checks b) :=
  inferInstanceAs (Decidable (_ ∧ _))

/-- If `decode` does not return early, `C` holds of the number of blocks it works with. -/
def WhenChecked (C : FECDecoder → ℕ → Prop) (d : FECDecoder) : Prop :=
  ∀ b ∈ d.blocks.head?, d.Checks b → C d b.header.nBlocks

instance (C : FECDecoder → ℕ → Prop) [∀ d n, Decidable (C d n)] (d : FECDecoder) :
    Decidable (d.WhenChecked C) :=
  inferInstanceAs (Decidable (∀ b ∈ d.blocks.head?, d.Checks b → C d b.header.nBlocks))

theorem nBlocks_le (b : FECBlock) : b.header.nBlocks ≤ 256 := (UInt8.toNat_lt _).le

theorem released_cases {d : FECDecoder} (hd : d.Held) (hfits : d.WhenChecked Fits) :
    d.released = .ok [] ∨ ∃ b first blocks, b ∈ d.blocks.head? ∧ d.Checks b ∧
      d.decodeBlocks b.header = .ok (first, blocks) ∧
      d.released = .ok ((blocks.zipIdx.drop first).filter fun bi ↦ bi.1.length ≤ d.blockSize) := by
  rw [released]
  cases hbl : d.blocks with
  | nil => exact .inl rfl
  | cons b bl =>
      dsimp only
      by_cases hcount : (b :: bl).length + d.fecBlocks.length < b.header.nBlocks
      · rw [if_pos hcount]
        exact .inl rfl
      by_cases hoff : b.header.nBlocks = 0 ∨ b.header.nFecBlocks = 0
      · rw [if_neg hcount, if_pos hoff]
        exact .inl rfl
      have hhead : b ∈ d.blocks.head? := by rw [hbl]; rfl
      have hcheck : d.Checks b := ⟨by rw [hbl]; exact Nat.le_of_not_lt hcount, hoff⟩
      obtain ⟨blank, first, bytes, -, -, -, hblocks⟩ :=
        (hfits b hhead hcheck).decodeBlocks hd rfl (nBlocks_le b)
      refine .inr ⟨b, first, _, hbl ▸ hhead, hcheck, hblocks, ?_⟩
      rw [if_neg hcount, if_neg hoff, hblocks]
      rfl

theorem Held.addDataBlock {d : FECDecoder} {blk : FECBlock} (hd : d.Held) (hblk : blk.Whole) :
    { d.addDataBlock blk with outBlocks := [] }.Held ∧
      ∀ x ∈ (d.addDataBlock blk).outBlocks, d.blocks.length = blk.header.block ∧ x.1 = blk := by
  have hout : ∀ x ∈ d.outBlocks ++
      (if d.blocks.length = blk.header.block then [(blk, blk.header.block)] else []),
      d.blocks.length = blk.header.block ∧ x.1 = blk := by
    intro x hx
    rw [hd.outBlocks, List.nil_append] at hx
    split at hx
    case isTrue hlen => exact ⟨hlen, by rw [List.mem_singleton.mp hx]⟩
    case isFalse => exact absurd hx List.not_mem_nil
  rw [addDataBlock_eq]
  dsimp only
  split
  · exact ⟨⟨by simp [complete, reset], by simp [complete, reset], by simp [complete, reset], rfl⟩,
      hout⟩
  · refine ⟨⟨fun b hb ↦ ?_, hd.fecBlocks, fun b hb ↦ ?_, rfl⟩, hout⟩
    · rcases List.mem_append.mp hb with hb | hb
      · exact hd.blocks b hb
      · exact List.mem_singleton.mp hb ▸ hblk
    · rcases List.mem_append.mp hb with hb | hb
      · exact (hd.blockSize b hb).trans (le_max_left _ _)
      · rw [List.mem_singleton.mp hb]
        exact le_max_right _ _

/-- The FEC block is added to the working set. -/
theorem Held.concat {d : FECDecoder} {blk : FECBlock} (hd : d.Held) (hblk : blk.Whole) :
    { d with fecBlocks := d.fecBlocks ++ [blk] }.Held := by
  refine ⟨hd.blocks, fun b hb ↦ ?_, hd.blockSize, hd.outBlocks⟩
  rcases List.mem_append.mp hb with hb | hb
  · exact hd.fecBlocks b hb
  · exact List.mem_singleton.mp hb ▸ hblk

/-- A packet that is long enough for its header, and for which `decode` stays inside its
buffers: what is output is the packet, or comes from `decode`. -/
theorem Held.deliver {d : FECDecoder} {pkt : List UInt8} (hd : d.Held)
    (hpkt : fecOverhead ≤ u16 pkt.length) (hfits : d.WhenDecoding (WhenChecked Fits) pkt) :
    ∃ blk out d', FECBlock.ofPacket pkt = .ok blk ∧ blk.Whole ∧ d.deliver pkt = .ok (out, d') ∧
      d'.Held ∧ ∀ x ∈ out, (d.Releases blk ∧ x.1 = blk) ∨
        ∃ d₁ o, d.decoding blk = some d₁ ∧ d₁.Held ∧ d₁.released = .ok o ∧ x ∈ o := by
  obtain ⟨blk, hblk⟩ : ∃ blk, FECBlock.ofPacket pkt = .ok blk := ⟨_, dif_pos hpkt⟩
  have hwhole := FECBlock.Whole.ofPacket hblk
  refine ⟨blk, ?_⟩
  rw [FECDecoder.deliver, FECDecoder.addBlock, hblk, ok_bind]
  rcases d.addPacket_cases blk with ⟨hadd, -, hrel⟩ | ⟨hadd, -⟩ | ⟨d₀, henter, ⟨hadd, -, hrel⟩ |
    ⟨hadd, -⟩ | ⟨hadd, hdec⟩⟩
  · rw [hadd]
    refine ⟨_, _, rfl, hwhole, rfl, ⟨hd.blocks, hd.fecBlocks, hd.blockSize, rfl⟩,
      fun x hx ↦ .inl ⟨hrel, ?_⟩⟩
    change x ∈ d.outBlocks ++ [(blk, blk.header.block)] at hx
    rw [hd.outBlocks, List.nil_append] at hx
    rw [List.mem_singleton.mp hx]
  · rw [hadd]
    refine ⟨_, _, rfl, hwhole, rfl, ⟨hd.blocks, hd.fecBlocks, hd.blockSize, rfl⟩, fun x hx ↦ ?_⟩
    change x ∈ d.outBlocks at hx
    rw [hd.outBlocks] at hx
    exact absurd hx List.not_mem_nil
  · rw [hadd]
    obtain ⟨hheld, hout⟩ := (henter.held hd).addDataBlock hwhole
    exact ⟨_, _, rfl, hwhole, rfl, hheld, fun x hx ↦ .inl ⟨hrel (hout x hx).1, (hout x hx).2⟩⟩
  · rw [hadd]
    have hheld := (henter.held hd).concat hwhole
    refine ⟨_, _, rfl, hwhole, rfl, ⟨hheld.blocks, hheld.fecBlocks, hheld.blockSize, rfl⟩,
      fun x hx ↦ ?_⟩
    change x ∈ d₀.outBlocks at hx
    rw [hheld.outBlocks] at hx
    exact absurd hx List.not_mem_nil
  · have hheld := (henter.held hd).concat hwhole
    rcases decode_released { d₀ with fecBlocks := d₀.fecBlocks ++ [blk] } with
      ⟨o, d₂, ho, hd₂, hout, -⟩ | ⟨f, hf, -⟩
    · rw [hadd, hd₂]
      refine ⟨_, _, rfl, hwhole, rfl, ⟨by simp [complete, reset], by simp [complete, reset],
        by simp [complete, reset], rfl⟩, fun x hx ↦ .inr ⟨_, o, hdec, hheld, ho, ?_⟩⟩
      change x ∈ d₂.outBlocks at hx
      rwa [hout, hheld.outBlocks, List.nil_append] at hx
    · rcases released_cases hheld (hfits blk _ hblk hdec) with h | ⟨b, first, blocks, -, -, -, h⟩
      · exact absurd (hf.symm.trans h) (by simp)
      · exact absurd (hf.symm.trans h) (by simp)

theorem Held.decoding {d d' : FECDecoder} {blk : FECBlock} (hd : d.Held) (hblk : blk.Whole)
    (hdec : d.decoding blk = some d') : d'.Held := by
  rcases d.addPacket_cases blk with ⟨-, hnone, -⟩ | ⟨-, hnone⟩ | ⟨d₀, henter, ⟨-, hnone, -⟩ |
    ⟨-, hnone⟩ | ⟨-, hsome⟩⟩
  · exact absurd (hdec.symm.trans hnone) (by simp)
  · exact absurd (hdec.symm.trans hnone) (by simp)
  · exact absurd (hdec.symm.trans hnone) (by simp)
  · exact absurd (hdec.symm.trans hnone) (by simp)
  · obtain rfl := Option.some.inj (hdec.symm.trans hsome)
    exact (henter.held hd).concat hblk

/-! ## No access leaves its buffer -/

/-- The accesses of `decode` and `fec_decode`, for `n` blocks. -/
structure CallInside (d : FECDecoder) (n : ℕ) : Prop where
  /-- `blocks[]` and `block_ptrs[]` are indexed below their size -/
  index : ∀ b ∈ d.blocks, b.header.block < (d.slots n).length
  /-- `erased_block_idxs[0]` exists -/
  erased : erasedIdxs (d.slots n) ≠ []
  /-- there are as many FEC blocks as erased blocks -/
  count : d.fecBlocks.length = (erasedIdxs (d.slots n)).length
  fecIdx : ∀ no ∈ d.fecIdxs, no < 128
  /-- `inverse[]` is indexed inside the table -/
  table : MatrixInTable d.fecIdxs (erasedIdxs (d.slots n))
  /-- every block holds `m_block_size` bytes -/
  data : ∀ slot ∈ d.slots n, ∀ b ∈ slot, d.blockSize ≤ b.fecData.length
  fec : ∀ b ∈ d.fecBlocks, d.blockSize ≤ b.fecData.length

/-- A call of `decode` with as many FEC blocks as there are data blocks missing. -/
def FitsExactly (d : FECDecoder) (n : ℕ) : Prop :=
  d.Fits n ∧ n = d.numbers.card + d.fecBlocks.length

instance (d : FECDecoder) (n : ℕ) : Decidable (d.FitsExactly n) :=
  inferInstanceAs (Decidable (_ ∧ _))

theorem FitsExactly.callInside {d : FECDecoder} {n : ℕ} (h : d.FitsExactly n) (hd : d.Held)
    (hn : n ≤ 256) : d.CallInside n := by
  obtain ⟨hfits, hcount⟩ := h
  obtain ⟨blank, -, hblank, -⟩ := ofHeader_ok {} hfits.size (hfits.blockSize_le hd)
  have hargs := hfits.decodeArgs hd hn hblank
  have hlen := length_erasedIdxs hfits.index
  refine ⟨fun b hb ↦ ?_, fun hnil ↦ ?_, by omega, hargs.nos_lt, hargs.matrixInTable,
    fun slot hslot b hb ↦ ?_, fun b hb ↦ hargs.fec_bytes _ (List.mem_map_of_mem hb)⟩
  · rw [(d.slots_spec n).1]
    exact hfits.index b hb
  · rw [hnil, List.length_nil] at hlen
    have := hfits.missing
    omega
  · have := hfits.data slot hslot b hb
    rw [(hd.blocks b (mem_blocks_of_mem_slots hslot hb)).length_fecData]
    omega

/-- A packet the decoder survives. -/
def Survives (d : FECDecoder) (pkt : List UInt8) : Prop :=
  fecOverhead ≤ u16 pkt.length ∧ d.WhenDecoding (WhenChecked FitsExactly) pkt

instance (d : FECDecoder) (pkt : List UInt8) : Decidable (d.Survives pkt) :=
  inferInstanceAs (Decidable (_ ∧ _))

end FECDecoder

/-- On any packets that are long enough for their header, and whose headers agree with each
other whenever `decode` runs, no access of the decoder leaves its buffer. -/
theorem decoder_stays_inside (pkts : List (List UInt8))
    (h : Run.Along FECDecoder.deliver FECDecoder.Survives {} pkts) :
    (∃ outs d, Run.run FECDecoder.deliver {} pkts = .ok (outs, d)) ∧
    Run.Along FECDecoder.deliver
      (FECDecoder.WhenDecoding (FECDecoder.WhenChecked FECDecoder.CallInside)) {} pkts := by
  have hfits : ∀ (d : FECDecoder) pkt, d.Survives pkt →
      d.WhenDecoding (FECDecoder.WhenChecked FECDecoder.Fits) pkt :=
    fun d pkt hsafe blk d' hblk hdec b hb hcheck ↦ (hsafe.2 blk d' hblk hdec b hb hcheck).1
  constructor
  · obtain ⟨outs, d, hrun, -⟩ := Run.run_inv_of_along h (fun _ _ d ↦ d.Held) .fresh
      fun pre pkt outs d _ hd hsafe ↦ by
        obtain ⟨blk, out, d', -, -, hdeliver, hheld, -⟩ :=
          hd.deliver hsafe.1 (hfits d pkt hsafe)
        exact ⟨out, d', hdeliver, hheld⟩
    exact ⟨outs, d, hrun⟩
  · refine Run.Along.imp_of_inv h (fun _ d ↦ d.Held) .fresh ?_ ?_
    · intro pre pkt d hd hsafe blk d' hblk hdec b hb hcheck
      have hheld := hd.decoding (.ofPacket hblk) hdec
      exact (hsafe.2 blk d' hblk hdec b hb hcheck).callInside hheld (FECDecoder.nBlocks_le b)
    · intro pre pkt d out d' hd hsafe hdeliver
      obtain ⟨blk, out', d'', -, -, hdeliver', hheld, -⟩ := hd.deliver hsafe.1 (hfits d pkt hsafe)
      obtain ⟨-, rfl⟩ := Prod.mk.inj (Except.ok.inj (hdeliver'.symm.trans hdeliver))
      exact hheld

/-- One of two data packets and the FEC packet: `decode` runs. -/
theorem decoder_stays_inside_one_loss :
    ∃ outs d, Run.run FECDecoder.deliver {} [[1, 0, 2, 1, 1, 0, 7], [1, 2, 2, 1, 2, 0, 3]] =
      .ok (outs, d) :=
  (decoder_stays_inside _ (by decide +kernel)).1

/-- Three packets of one sequence with different `n_blocks`: `decode` makes room for two
blocks, and stores one with the number five. -/
theorem malformed_headers_leave_buffer :
    ¬ ∃ outs d, Run.run FECDecoder.deliver {}
      [[1, 0, 2, 1, 1, 0, 7], [1, 5, 6, 1, 1, 0, 7], [1, 3, 3, 1, 1, 0, 7]] = .ok (outs, d) := by
  rintro ⟨outs, d, hrun⟩
  have herror : Run.run FECDecoder.deliver {}
      [[1, 0, 2, 1, 1, 0, 7], [1, 5, 6, 1, 1, 0, 7], [1, 3, 3, 1, 1, 0, 7]] = .error .index := by
    decide +kernel
  exact absurd (herror.symm.trans hrun) (by simp)

end WfbBridge
