import Mathlib
import WfbBridge.Decoder.Recovery
import WfbBridge.Decoder.Safety
import WfbBridge.Encoder.Batch

/-!
# Packets outside the limits of the code

The decoder on the packets of one batch, when the batch may have more FEC packets than the code
allows.  A block number has eight bits, so an FEC packet can come with the number of a data
packet; and the number of an FEC block can lie outside the table of `resolve`.
-/

namespace WfbBridge

open Checked Fec Gf

/-- The header of a block, without the length. -/
structure FECBlock.HasHeader (b : FECBlock) (seqNum block n f : ℕ) : Prop where
  seqNum : b.header.seqNum = seqNum
  block : b.header.block = block
  nBlocks : b.header.nBlocks = n
  nFecBlocks : b.header.nFecBlocks = f

/-- A packet as the receiver holds it. -/
theorem FECEncoder.exists_ofPacket {e : FECEncoder} (hseq : e.seqNum < 256)
    (hf : e.numFecBlocks < 256) {n : ℕ} (hn : n < 256) (k : ℕ) {body : List UInt8}
    (h2 : 2 ≤ body.length) (hle : body.length ≤ 65531) :
    ∃ blk, FECBlock.ofPacket (e.tag n k ++ body) = .ok blk ∧ blk.data = e.tag n k ++ body ∧
      blk.HasHeader e.seqNum (u8 k) n e.numFecBlocks := by
  have hlen : (e.tag n k ++ body).length = 4 + body.length := List.length_append
  have hu : u16 (e.tag n k ++ body).length = 4 + body.length := by
    rw [hlen]
    exact u16_of_lt (by omega)
  rw [FECBlock.ofPacket, dif_pos (by rw [hu]; simp only [fecOverhead]; omega)]
  refine ⟨_, rfl, ?_, ?_, ?_, ?_, ?_⟩
  · simp only [hu]
    exact List.take_of_length_le hlen.le
  all_goals
    simp only [FECBlock.header, FECBlock.byte, hu, List.take_of_length_le hlen.le]
  · exact UInt8.toNat_ofNat_of_lt' hseq
  · exact UInt8.toNat_ofNat'
  · exact UInt8.toNat_ofNat_of_lt' hn
  · exact UInt8.toNat_ofNat_of_lt' hf

namespace FECDecoder

variable {d : FECDecoder} {blk : FECBlock} {pkt : List UInt8} {bs : List FECBlock}
  {seqNum n f k : ℕ}

/-- The decoder has got the first data blocks of a sequence, and nothing else. -/
structure Gathered (seqNum n f : ℕ) (bs : List FECBlock) (d : FECDecoder) : Prop where
  blocks : d.blocks = bs
  fecBlocks : d.fecBlocks = []
  outBlocks : d.outBlocks = []
  header : ∀ b ∈ bs, b.header.nBlocks = n ∧ b.header.nFecBlocks = f
  entered : bs ≠ [] → d.blockSize ≠ 0 ∧ d.prevHeader.seqNum = seqNum
  fresh : bs = [] → d.blockSize = 0 ∧ d.prevHeader.seqNum = 0

theorem Gathered.init (seqNum n f : ℕ) : Gathered seqNum n f [] {} :=
  ⟨rfl, rfl, rfl, by simp, fun h ↦ absurd rfl h, fun _ ↦ ⟨rfl, rfl⟩⟩

/-- The working set of `d'` is the one of `d`, and nothing is to be output. -/
structure SameSet (d d' : FECDecoder) : Prop where
  blocks : d'.blocks = d.blocks
  fecBlocks : d'.fecBlocks = d.fecBlocks
  outBlocks : d'.outBlocks = d.outBlocks
  blockSize : d'.blockSize = d.blockSize

/-- The next packet of the sequence does not reset the working set. -/
theorem Gathered.enterSequence (h : d.Gathered seqNum n f bs) (hpos : 0 < seqNum) (m : ℕ)
    {hdr : FECHeader} (hseq : hdr.seqNum = seqNum) :
    ∃ d', (d.countPacket m).enterSequence hdr = some d' ∧ d.SameSet d' := by
  by_cases hbs : bs = []
  · obtain ⟨hsize, hprev⟩ := h.fresh hbs
    have hsize : (d.countPacket m).blockSize = 0 := hsize
    have hne : ¬(d.countPacket m).prevHeader.seqNum =
        unrolledSeq (d.countPacket m).prevHeader.seqNum hdr.seqNum := by
      change ¬d.prevHeader.seqNum = unrolledSeq d.prevHeader.seqNum hdr.seqNum
      rw [hprev, hseq, unrolledSeq, if_neg (Nat.not_lt_zero _)]
      exact hpos.ne
    refine ⟨d.countPacket m, ?_, rfl, rfl, rfl, rfl⟩
    rw [FECDecoder.enterSequence, if_neg (not_not_intro hsize), if_neg hne]
  · obtain ⟨hsize, hprev⟩ := h.entered hbs
    have hsize : (d.countPacket m).blockSize ≠ 0 := hsize
    have heq : ¬(d.countPacket m).prevHeader.seqNum ≠
        unrolledSeq (d.countPacket m).prevHeader.seqNum hdr.seqNum := by
      change ¬d.prevHeader.seqNum ≠ unrolledSeq d.prevHeader.seqNum hdr.seqNum
      rw [hprev, hseq, unrolledSeq, if_neg (lt_irrefl _)]
      exact not_not_intro rfl
    rw [FECDecoder.enterSequence, if_pos hsize, if_neg heq]
    split
    · exact ⟨_, rfl, rfl, rfl, rfl, rfl⟩
    · exact ⟨_, rfl, rfl, rfl, rfl, rfl⟩

/-- The next packet of the sequence is handled with the working set as it is. -/
theorem Gathered.addPacket (h : d.Gathered seqNum n f bs) (hpos : 0 < seqNum) (hn : 0 < n)
    (hf : 0 < f) (hblk : blk.HasHeader seqNum k n f) :
    ∃ d₀ : FECDecoder, d.SameSet d₀ ∧ d₀.prevHeader = blk.header ∧
      d.addPacket blk = if blk.isDataBlock then .ok (d₀.addDataBlock blk)
        else d₀.addFecBlock blk := by
  obtain ⟨d', henter, hset⟩ := h.enterSequence hpos blk.pktLength hblk.seqNum
  have hoff : ¬(blk.header.nBlocks = 0 ∨ blk.header.nFecBlocks = 0) := by
    rw [hblk.nBlocks, hblk.nFecBlocks]
    omega
  refine ⟨{ d' with prevHeader := blk.header }.countSkipped blk.header, ?_, ?_, ?_⟩
  · rw [countSkipped]
    split
    · exact ⟨hset.blocks, hset.fecBlocks, hset.outBlocks, hset.blockSize⟩
    · exact ⟨hset.blocks, hset.fecBlocks, hset.outBlocks, hset.blockSize⟩
  · rw [countSkipped]
    split <;> rfl
  · simp only [FECDecoder.addPacket, if_neg hoff, henter]

/-- The sequence is over: the rest of its packets is skipped. -/
structure Over (seqNum : ℕ) (d : FECDecoder) : Prop where
  blockSize : d.blockSize = 0
  prevHeader : d.prevHeader.seqNum = seqNum
  outBlocks : d.outBlocks = []

/-- A packet with the number of a data block, be it one or not. -/
theorem Gathered.deliver_data (h : d.Gathered seqNum n f bs) (hpos : 0 < seqNum) (hf : 0 < f)
    (hpkt : FECBlock.ofPacket pkt = .ok blk) (hblk : blk.HasHeader seqNum k n f) (hk : k < n)
    (hsize : bs.length + 1 ≠ n → blk.blockSize ≠ 0) :
    ∃ d', d.deliver pkt = .ok (if bs.length = k then [(blk, k)] else [], d') ∧
      if bs.length + 1 = n then d'.Over seqNum else d'.Gathered seqNum n f (bs ++ [blk]) := by
  obtain ⟨d₀, hset, hprev, hadd⟩ := h.addPacket hpos (Nat.zero_lt_of_lt hk) hf hblk
  have hdata : blk.isDataBlock := by
    rw [FECBlock.isDataBlock, hblk.block, hblk.nBlocks]
    exact hk
  have hblocks : d₀.blocks = bs := hset.blocks.trans h.blocks
  have hout : d₀.outBlocks = [] := hset.outBlocks.trans h.outBlocks
  have hseq : d₀.prevHeader.seqNum = seqNum := by rw [hprev, hblk.seqNum]
  rw [deliver, FECDecoder.addBlock, hpkt, ok_bind, hadd, if_pos hdata, ok_bind, addDataBlock_eq]
  simp only [hblocks, hout, hblk.block, hblk.nBlocks, List.nil_append]
  by_cases hfull : bs.length + 1 = n
  · simp only [if_pos hfull]
    exact ⟨_, rfl, rfl, hseq, rfl⟩
  · simp only [if_neg hfull]
    refine ⟨_, rfl, rfl, hset.fecBlocks.trans h.fecBlocks, rfl, ?_, fun _ ↦ ⟨?_, hseq⟩,
      fun hnil ↦ absurd hnil (List.append_ne_nil_of_right_ne_nil _ (List.cons_ne_nil _ _))⟩
    · intro b hb
      rcases List.mem_append.mp hb with hb | hb
      · exact h.header b hb
      · rw [List.mem_singleton.mp hb]
        exact ⟨hblk.nBlocks, hblk.nFecBlocks⟩
    · have hle := le_max_right d₀.blockSize blk.blockSize
      have hne := hsize hfull
      change max d₀.blockSize blk.blockSize ≠ 0
      omega

/-- A packet of a sequence that is over. -/
theorem Over.deliver (h : d.Over seqNum) (hn : 0 < n) (hf : 0 < f)
    (hpkt : FECBlock.ofPacket pkt = .ok blk) (hblk : blk.HasHeader seqNum k n f) :
    ∃ d', d.deliver pkt = .ok ([], d') ∧ d'.Over seqNum := by
  have hoff : ¬(blk.header.nBlocks = 0 ∨ blk.header.nFecBlocks = 0) := by
    rw [hblk.nBlocks, hblk.nFecBlocks]
    omega
  have hsize : (d.countPacket blk.pktLength).blockSize = 0 := h.blockSize
  have hover : (d.countPacket blk.pktLength).prevHeader.seqNum =
      unrolledSeq (d.countPacket blk.pktLength).prevHeader.seqNum blk.header.seqNum := by
    change d.prevHeader.seqNum = unrolledSeq d.prevHeader.seqNum blk.header.seqNum
    rw [h.prevHeader, hblk.seqNum, unrolledSeq, if_neg (lt_irrefl _)]
  have hskip : (d.countPacket blk.pktLength).enterSequence blk.header = none := by
    rw [FECDecoder.enterSequence, if_neg (not_not_intro hsize), if_pos hover]
  have hadd : d.addPacket blk =
      .ok { d.countPacket blk.pktLength with prevHeader := blk.header } := by
    simp only [FECDecoder.addPacket, if_neg hoff, hskip]
  refine ⟨{ d.countPacket blk.pktLength with prevHeader := blk.header, outBlocks := [] }, ?_,
    h.blockSize, hblk.seqNum, rfl⟩
  rw [FECDecoder.deliver, FECDecoder.addBlock, hpkt, ok_bind, hadd, ok_bind]
  exact congrArg (fun out ↦ Except.ok (out, _)) h.outBlocks

/-- `resolve` looks outside the table for an FEC block with a number from 128 on. -/
theorem fecDecode_high {sz : ℕ} {data fec r : List (List UInt8)} {no first : ℕ} {nos rest : List ℕ}
    (hno : 128 ≤ no) (hfirst : first < 256) :
    fecDecode sz data fec (no :: nos) (first :: rest) ≠ .ok r := by
  intro h
  rw [fecDecode] at h
  split at h
  · cases h
  obtain ⟨reduced, -, h⟩ := bind_eq_ok.mp h
  rw [resolve] at h
  split at h
  case isTrue htable =>
      have hle : (128 + no) ^^^ first ≤ gfSize := htable ⟨0, by simp⟩ ⟨0, by simp⟩
      have hlt : (128 + no) ^^^ first ^^^ first < 256 :=
        xor_lt_256 (Nat.lt_of_le_of_lt hle (by decide)) hfirst
      rw [Nat.xor_assoc, Nat.xor_self, Nat.xor_zero] at hlt
      omega
  case isFalse => cases h

/-- So `decode` fails if it has such a block first. -/
theorem decodeBlocks_high {no : ℕ} {nos : List ℕ} (hfec : d.fecIdxs = no :: nos) (hno : 128 ≤ no)
    {h : FECHeader} (hn : h.nBlocks ≤ 256) {r : ℕ × List FECBlock} : d.decodeBlocks h ≠ .ok r := by
  intro hr
  simp only [decodeBlocks, hfec] at hr
  split at hr
  · cases hr
  cases herased : erasedIdxs (d.slots h.nBlocks) with
  | nil => simp [herased] at hr
  | cons first rest =>
      have hfirst : first < h.nBlocks := (mem_erasedIdxs.mp (herased ▸ List.mem_cons_self)).1
      simp only [herased] at hr
      obtain ⟨rebuilt, -, hr⟩ := bind_eq_ok.mp hr
      obtain ⟨bytes, hbytes, -⟩ := bind_eq_ok.mp hr
      exact fecDecode_high hno (hfirst.trans_le hn) hbytes

/-- An FEC packet with a number outside the table, as the only one. -/
theorem Gathered.deliver_high (h : d.Gathered seqNum n f bs) (hpos : 0 < seqNum) (hf : 0 < f)
    (hlen : bs.length + 1 = n) (hbs : bs ≠ []) (hn : n ≤ 256)
    (hpkt : FECBlock.ofPacket pkt = .ok blk) (hblk : blk.HasHeader seqNum k n f) (hk : n ≤ k)
    (hhigh : 128 ≤ blk.fecIdx) {r : List (FECBlock × ℕ) × FECDecoder} : d.deliver pkt ≠ .ok r := by
  obtain ⟨d₀, hset, -, hadd⟩ := h.addPacket hpos (by omega) hf hblk
  have hnot : ¬blk.isDataBlock := by
    rw [FECBlock.isDataBlock, hblk.block, hblk.nBlocks]
    exact Nat.not_lt.mpr hk
  have hfec : d₀.fecBlocks ++ [blk] = [blk] := by rw [hset.fecBlocks, h.fecBlocks, List.nil_append]
  have hblocks : d₀.blocks = bs := hset.blocks.trans h.blocks
  have hcount : d₀.blocks.length + [blk].length = blk.header.nBlocks := by
    rw [hblocks, hblk.nBlocks]
    exact hlen
  intro hdeliver
  rw [FECDecoder.deliver, FECDecoder.addBlock, hpkt, ok_bind, hadd, if_neg hnot] at hdeliver
  obtain ⟨d₁, hadd₁, -⟩ := bind_eq_ok.mp hdeliver
  simp only [addFecBlock, hfec, if_pos hcount] at hadd₁
  obtain ⟨d₂, hdecode, -⟩ := bind_eq_ok.mp hadd₁
  obtain ⟨b, bs, rfl⟩ := List.exists_cons_of_ne_nil hbs
  obtain ⟨hbn, hbf⟩ := h.header b List.mem_cons_self
  rw [hblocks, hblk.nBlocks] at hcount
  simp only [FECDecoder.decode, hblocks, hbn, hbf, if_neg hcount.not_lt] at hdecode
  rw [if_neg (by omega)] at hdecode
  obtain ⟨_, hdecoded, -⟩ := bind_eq_ok.mp hdecode
  exact decodeBlocks_high rfl hhigh (hbn.trans_le hn) hdecoded

/-! ## Runs -/

/-- The data packets of a sequence, but for the last one. -/
theorem run_gathered (blks : List FECBlock) (hpos : 0 < seqNum) (hf : 0 < f) (hlt : blks.length < n)
    (hblks : ∀ blk ∈ blks, FECBlock.ofPacket blk.data = .ok blk ∧ blk.blockSize ≠ 0)
    (hheader : ∀ (i : ℕ) (blk : FECBlock), blks[i]? = some blk → blk.HasHeader seqNum i n f) :
    ∃ outs d, Run.run deliver {} (blks.map FECBlock.data) = .ok (outs, d) ∧
      d.Gathered seqNum n f blks ∧ payloads outs = blks.map FECBlock.payload := by
  induction blks using List.reverseRecOn with
  | nil => exact ⟨[], {}, rfl, .init seqNum n f, rfl⟩
  | append_singleton blks blk ih =>
      rw [List.length_append, List.length_singleton] at hlt
      obtain ⟨outs, d, hrun, hd, hout⟩ := ih (by omega)
        (fun b hb ↦ hblks b (List.mem_append_left _ hb))
        (fun i b hb ↦ hheader i b
          ((List.getElem?_append_left (List.getElem?_eq_some_iff.mp hb).1).trans hb))
      obtain ⟨hpkt, hsize⟩ := hblks blk (by simp)
      obtain ⟨d', hdeliver, hd'⟩ := hd.deliver_data hpos hf hpkt
        (hheader blks.length blk List.getElem?_concat_length) (by omega) fun _ ↦ hsize
      rw [if_pos rfl] at hdeliver
      rw [if_neg (by omega)] at hd'
      refine ⟨outs ++ [[(blk, blks.length)]], d', ?_, hd', ?_⟩
      · rw [List.map_append]
        exact Run.run_append_eq_ok.mpr ⟨outs, d, _, hrun,
          Run.run_cons_eq_ok.mpr ⟨_, d', [], hdeliver, rfl, rfl⟩, rfl⟩
      · rw [payloads_append, hout, List.map_append]
        rfl

/-- The rest of the packets of a sequence. -/
theorem Over.run (h : d.Over seqNum) (blks : List FECBlock) (hn : 0 < n) (hf : 0 < f)
    (hblks : ∀ blk ∈ blks, FECBlock.ofPacket blk.data = .ok blk ∧ ∃ k, blk.HasHeader seqNum k n f) :
    ∃ outs d', Run.run FECDecoder.deliver d (blks.map FECBlock.data) = .ok (outs, d') ∧
      payloads outs = [] := by
  induction blks generalizing d with
  | nil => exact ⟨[], d, rfl, rfl⟩
  | cons blk blks ih =>
      obtain ⟨hpkt, k, hblk⟩ := hblks blk List.mem_cons_self
      obtain ⟨d', hdeliver, hd'⟩ := h.deliver hn hf hpkt hblk
      obtain ⟨outs, d'', hrun, hout⟩ := ih hd' fun b hb ↦ hblks b (List.mem_cons_of_mem _ hb)
      refine ⟨[] :: outs, d'', Run.run_cons_eq_ok.mpr ⟨[], d', outs, hdeliver, hrun, rfl⟩, ?_⟩
      rw [← List.singleton_append, payloads_append, hout]
      rfl

end FECDecoder

end WfbBridge
