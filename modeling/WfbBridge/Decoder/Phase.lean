import Mathlib
import WfbBridge.Decoder.Basic
import WfbBridge.Wire

/-!
# The decoder on the packets of a sequence

Fed with packets of a `Sequence`, in order, the decoder goes through phases: it
collects data blocks and FEC blocks until it has enough of them, and skips the
rest.  `Phase.step` is this machine in terms of block numbers, and `At.deliver`
shows that the decoder runs it.

Two details of the source decide what the machine looks like.  `m_block_size` is
set by data blocks only, and 0 means that no sequence is in progress; so after
FEC blocks alone the rest of the sequence is skipped.  And `m_fec_blocks` is not
cleared on that path, so what it holds can be left over from an earlier sequence:
the FEC blocks of a phase are arbitrary blocks, not numbers.
-/

namespace WfbBridge

open Checked

/-- The blocks `decode` releases. -/
def FECDecoder.released (d : FECDecoder) : Except Fault (List (FECBlock × ℕ)) :=
  match d.blocks with
  | [] => .ok []
  | b :: _ =>
      if d.blocks.length + d.fecBlocks.length < b.header.nBlocks then .ok []
      else if b.header.nBlocks = 0 ∨ b.header.nFecBlocks = 0 then .ok []
      else do
        let (first, blocks) ← d.decodeBlocks b.header
        .ok ((blocks.zipIdx.drop first).filter fun bi ↦ bi.1.length ≤ d.blockSize)

namespace Sequence

variable (q : Sequence)

/-- `m_block_size` after the data blocks `I`. -/
def heldSize (I : List ℕ) : ℕ := I.foldl (fun size i ↦ max size ((q.msg i).length + 2)) 0

/-- The blocks `decode` releases when it is called with the data blocks `I`
and the FEC blocks `G`. -/
def rebuild (I : List ℕ) (G : List FECBlock) : Except Fault (List (FECBlock × ℕ)) :=
  FECDecoder.released { blockSize := q.heldSize I, blocks := I.map q.block, fecBlocks := G }

end Sequence

/-- Where the decoder is in a sequence. -/
inductive Phase where
  /-- it has the data blocks `I`, and the FEC blocks `G` -/
  | collecting (I : List ℕ) (G : List FECBlock)
  /-- the remaining packets are skipped; `G` is still in `m_fec_blocks` -/
  | skipping (G : List FECBlock)

namespace Phase

/-- The FEC blocks that are still there when the next sequence starts. -/
def leftover : Phase → List FECBlock
  | .collecting [] G => G
  | .collecting (_ :: _) _ => []
  | .skipping G => G

/-- Packet `k` of the sequence arrives. -/
def step (q : Sequence) : Phase → ℕ → Except Fault (List (FECBlock × ℕ) × Phase)
  | .skipping G, _ => .ok ([], .skipping G)
  | .collecting I G, k =>
      if k < q.nBlocks then
        .ok (if I.length = k then [(q.block k, k)] else [],
          if I.length + 1 = q.nBlocks then .skipping [] else .collecting (I ++ [k]) G)
      else if I.length + (G.length + 1) = q.nBlocks then do
        let out ← q.rebuild I (G ++ [q.block k])
        .ok (out, .skipping [])
      else if I = [] then .ok ([], .skipping (G ++ [q.block k]))
      else .ok ([], .collecting I (G ++ [q.block k]))

/-- Some packet of the sequence has arrived. -/
def Entered : Phase → Prop
  | .collecting I _ => I ≠ []
  | .skipping _ => True

theorem entered_step {q : Sequence} {ph ph' : Phase} {k : ℕ} {out : List (FECBlock × ℕ)}
    (h : ph.step q k = .ok (out, ph')) : ph'.Entered := by
  cases ph with
  | skipping G =>
      obtain ⟨-, rfl⟩ : [] = out ∧ skipping G = ph' := by simpa [step] using h
      trivial
  | collecting I G =>
      by_cases hdata : k < q.nBlocks
      · rw [step, if_pos hdata] at h
        obtain ⟨-, rfl⟩ := Prod.mk.inj (Except.ok.inj h)
        split
        · trivial
        · simp [Entered]
      rw [step, if_neg hdata] at h
      by_cases hcount : I.length + (G.length + 1) = q.nBlocks
      · rw [if_pos hcount] at h
        obtain ⟨out', -, h⟩ := bind_eq_ok.mp h
        obtain ⟨-, rfl⟩ := Prod.mk.inj (Except.ok.inj h)
        trivial
      rw [if_neg hcount] at h
      by_cases hI : I = []
      · rw [if_pos hI] at h
        obtain ⟨-, rfl⟩ := Prod.mk.inj (Except.ok.inj h)
        trivial
      · rw [if_neg hI] at h
        obtain ⟨-, rfl⟩ := Prod.mk.inj (Except.ok.inj h)
        exact hI

theorem entered_run {q : Sequence} {ph ph' : Phase} {ks : List ℕ}
    {outs : List (List (FECBlock × ℕ))} (h : Run.run (step q) ph ks = .ok (outs, ph'))
    (hks : ks ≠ []) : ph'.Entered := by
  obtain ⟨ks, k, rfl⟩ := (List.eq_nil_or_concat' ks).resolve_left hks
  obtain ⟨_, ph₁, _, -, hlast, -⟩ := Run.run_append_eq_ok.mp h
  obtain ⟨out, ph₂, _, hstep, hnil, -⟩ := Run.run_cons_eq_ok.mp hlast
  obtain ⟨-, rfl⟩ := Prod.mk.inj (Except.ok.inj hnil)
  exact entered_step hstep

end Phase

namespace FECDecoder

/-- The working set is the data blocks `I` of `q` and the FEC blocks `G`. -/
structure Holds (d : FECDecoder) (q : Sequence) (I : List ℕ) (G : List FECBlock) : Prop where
  blockSize : d.blockSize = q.heldSize I
  blocks : d.blocks = I.map q.block
  fecBlocks : d.fecBlocks = G
  outBlocks : d.outBlocks = []

/-- A decoder between two sequences; `G` is what `m_fec_blocks` will hold when a
packet of the next one arrives. -/
structure Between (d : FECDecoder) (G : List FECBlock) : Prop where
  prev_lt : d.prevHeader.seqNum < 256
  blocks : d.blockSize = 0 → d.blocks = []
  fecBlocks : (if d.blockSize = 0 then d.fecBlocks else []) = G
  outBlocks : d.outBlocks = []

/-- The decoder is in a phase of `q`. -/
inductive At (d : FECDecoder) (q : Sequence) : Phase → Prop
  | entry {G : List FECBlock} (hprev : d.prevHeader.seqNum ≠ q.seqNum) (hd : d.Between G) :
      d.At q (.collecting [] G)
  | collecting {I : List ℕ} {G : List FECBlock} (hI : I ≠ [])
      (hprev : d.prevHeader.seqNum = q.seqNum) (hd : d.Holds q I G) : d.At q (.collecting I G)
  | skipping {G : List FECBlock} (hprev : d.prevHeader.seqNum = q.seqNum) (hd : d.Holds q [] G) :
      d.At q (.skipping G)

theorem Between.fresh : ({} : FECDecoder).Between [] := ⟨by decide, fun _ ↦ rfl, rfl, rfl⟩

end FECDecoder

/-! ## One packet -/

namespace Sequence

variable {q : Sequence}

theorem heldSize_concat (I : List ℕ) (i : ℕ) :
    q.heldSize (I ++ [i]) = max (q.heldSize I) ((q.msg i).length + 2) := by
  rw [heldSize, List.foldl_append]
  rfl

theorem le_heldSize {I : List ℕ} {i : ℕ} (hi : i ∈ I) : (q.msg i).length + 2 ≤ q.heldSize I := by
  induction I using List.reverseRecOn with
  | nil => exact absurd hi List.not_mem_nil
  | append_singleton I j ih =>
      rw [heldSize_concat]
      rcases List.mem_append.mp hi with hi | hi
      · exact (ih hi).trans (le_max_left _ _)
      · rw [List.mem_singleton.mp hi]
        exact le_max_right _ _

theorem two_le_heldSize {I : List ℕ} (hI : I ≠ []) : 2 ≤ q.heldSize I := by
  obtain ⟨i, I, rfl⟩ := List.exists_cons_of_ne_nil hI
  exact (Nat.le_add_left 2 _).trans (le_heldSize (i := i) List.mem_cons_self)

theorem exists_heldSize {I : List ℕ} (hI : I ≠ []) :
    ∃ i ∈ I, q.heldSize I = (q.msg i).length + 2 := by
  induction I using List.reverseRecOn with
  | nil => exact absurd rfl hI
  | append_singleton I j ih =>
      rw [heldSize_concat]
      by_cases hle : q.heldSize I ≤ (q.msg j).length + 2
      · exact ⟨j, by simp, max_eq_right hle⟩
      · have hne : I ≠ [] := by
          rintro rfl
          exact hle (Nat.zero_le _)
        obtain ⟨i, hi, hsize⟩ := ih hne
        exact ⟨i, List.mem_append_left _ hi, by rw [max_eq_left (by omega), hsize]⟩

theorem heldSize_le (I : List ℕ) : q.heldSize I ≤ q.size := by
  induction I using List.reverseRecOn with
  | nil => exact Nat.zero_le _
  | append_singleton I j ih =>
      rw [heldSize_concat]
      exact max_le ih (q.length_msg_le j)

end Sequence

namespace FECDecoder

variable {d : FECDecoder} {q : Sequence} {I : List ℕ} {G : List FECBlock} {k : ℕ}

theorem unrolledSeq_eq {prev seq : ℕ} (hprev : prev < 256) :
    unrolledSeq prev seq = prev ↔ seq = prev := by
  rw [unrolledSeq]
  split <;> omega

theorem Holds.dropPackets (h : d.Holds q I G) (n : ℕ) : (d.dropPackets n).Holds q I G :=
  ⟨h.blockSize, h.blocks, h.fecBlocks, h.outBlocks⟩

theorem Holds.countPacket (h : d.Holds q I G) (n : ℕ) : (d.countPacket n).Holds q I G :=
  ⟨h.blockSize, h.blocks, h.fecBlocks, h.outBlocks⟩

theorem Holds.setPrevHeader (h : d.Holds q I G) (hd : FECHeader) :
    { d with prevHeader := hd }.Holds q I G :=
  ⟨h.blockSize, h.blocks, h.fecBlocks, h.outBlocks⟩

theorem Holds.countSkipped (h : d.Holds q I G) (hd : FECHeader) :
    (d.countSkipped hd).Holds q I G := by
  rw [FECDecoder.countSkipped]
  split
  · exact h.dropPackets _
  · exact h

@[simp] theorem countSkipped_prevHeader (hd : FECHeader) :
    (d.countSkipped hd).prevHeader = d.prevHeader := by
  rw [FECDecoder.countSkipped]
  split <;> rfl

/-- A packet of the sequence that is being collected is not skipped, and what is
collected already is kept. -/
theorem At.enterSequence (h : d.At q (.collecting I G)) {hd : FECHeader}
    (hseq : hd.seqNum = q.seqNum) (n : ℕ) :
    ∃ d', (d.countPacket n).enterSequence hd = some d' ∧ d'.Holds q I G := by
  cases h with
  | entry hprev hb =>
      have hne : d.prevHeader.seqNum ≠ unrolledSeq d.prevHeader.seqNum hd.seqNum := fun heq ↦
        hprev (((unrolledSeq_eq hb.prev_lt).mp heq.symm).symm.trans hseq)
      by_cases hbs : d.blockSize = 0
      · refine ⟨d.countPacket n, ?_, ?_⟩
        · simp only [FECDecoder.enterSequence, FECDecoder.countPacket, hbs, hne, ne_eq,
            not_true_eq_false, if_false]
        · have hG := hb.fecBlocks
          rw [if_pos hbs] at hG
          exact ⟨hbs, hb.blocks hbs, hG, hb.outBlocks⟩
      · refine ⟨((d.countPacket n).countBreak hd).reset, ?_, rfl, rfl, ?_, ?_⟩
        · simp only [FECDecoder.enterSequence, FECDecoder.countPacket, hbs, hne, ne_eq,
            not_false_eq_true, if_true]
        · have hG := hb.fecBlocks
          rw [if_neg hbs] at hG
          exact hG
        · have hout : ((d.countPacket n).countBreak hd).outBlocks = d.outBlocks := by
            simp only [FECDecoder.countBreak]
            split_ifs <;> rfl
          exact hout.trans hb.outBlocks
  | collecting hI hprev hholds =>
      have heq : d.prevHeader.seqNum = unrolledSeq d.prevHeader.seqNum hd.seqNum := by
        rw [hseq, hprev, unrolledSeq, if_neg (lt_irrefl _)]
      have hbs : d.blockSize ≠ 0 := by
        have := q.two_le_heldSize hI
        rw [hholds.blockSize]
        omega
      simp only [FECDecoder.enterSequence, FECDecoder.countPacket, hbs, ← heq, ne_eq,
        not_false_eq_true, not_true_eq_false, if_true, if_false]
      by_cases hle : hd.block ≤ d.prevHeader.block
      · exact ⟨_, if_pos hle, (hholds.countPacket n).dropPackets _⟩
      · exact ⟨_, if_neg hle, (hholds.countPacket n).dropPackets _⟩

theorem At.enterSequence_skipping (h : d.At q (.skipping G)) {hd : FECHeader}
    (hseq : hd.seqNum = q.seqNum) (n : ℕ) : (d.countPacket n).enterSequence hd = none := by
  cases h with
  | skipping hprev hholds =>
      have hbs : d.blockSize = 0 := hholds.blockSize
      have heq : d.prevHeader.seqNum = unrolledSeq d.prevHeader.seqNum hd.seqNum := by
        rw [hseq, hprev, unrolledSeq, if_neg (lt_irrefl _)]
      simp only [FECDecoder.enterSequence, FECDecoder.countPacket, hbs, ← heq, ne_eq,
        not_true_eq_false, if_true, if_false]

/-- `deliver` on a packet of a sequence: `add_block`, and then the output is taken. -/
theorem exists_addPacket {d' : FECDecoder} {out : List (FECBlock × ℕ)}
    (h : d.deliver (q.packet k) = .ok (out, d')) :
    ∃ e, d.addPacket (q.block k) = .ok e ∧ e.outBlocks = out ∧ { e with outBlocks := [] } = d' := by
  rw [FECDecoder.deliver, FECDecoder.addBlock, Sequence.ofPacket_packet, ok_bind] at h
  obtain ⟨e, hadd, h⟩ := bind_eq_ok.mp h
  exact ⟨e, hadd, Prod.mk.inj (Except.ok.inj h)⟩

theorem not_passThrough (hk : k < q.nPackets) :
    ¬ ((q.block k).header.nBlocks = 0 ∨ (q.block k).header.nFecBlocks = 0) := by
  obtain ⟨-, -, hn, hf⟩ := Sequence.header_block hk
  have := q.nBlocks_pos
  have := q.nFecBlocks_pos
  omega

/-- `add_block` on a packet of a sequence, up to the two kinds of blocks. -/
theorem At.addPacket (h : d.At q (.collecting I G)) (hk : k < q.nPackets) :
    ∃ d' : FECDecoder, d'.Holds q I G ∧ d'.prevHeader.seqNum = q.seqNum ∧
      d.addPacket (q.block k) =
        (if k < q.nBlocks then .ok (d'.addDataBlock (q.block k)) else d'.addFecBlock (q.block k)) ∧
      d.decoding (q.block k) =
        (if ¬ k < q.nBlocks ∧ I.length + (G.length + 1) = q.nBlocks
          then some { d' with fecBlocks := d'.fecBlocks ++ [q.block k] } else none) := by
  obtain ⟨hseq, -, hn, hf⟩ := Sequence.header_block hk
  obtain ⟨d', henter, hholds⟩ := h.enterSequence hseq (q.block k).pktLength
  have hholds' := (hholds.setPrevHeader (q.block k).header).countSkipped (q.block k).header
  refine ⟨_, hholds', ?_, ?_, ?_⟩
  · rw [countSkipped_prevHeader]
    exact hseq
  · simp only [FECDecoder.addPacket, if_neg (not_passThrough hk), henter,
      Sequence.isDataBlock_block hk]
  · have hblocks := congrArg List.length hholds'.blocks
    have hfec := congrArg List.length hholds'.fecBlocks
    rw [List.length_map] at hblocks
    simp only [FECDecoder.decoding, if_neg (not_passThrough hk), henter]
    simp only [Sequence.isDataBlock_block hk, hn, hblocks, hfec, List.length_append,
      List.length_singleton]

theorem At.decoding_skipping (h : d.At q (.skipping G)) (hk : k < q.nPackets) :
    d.decoding (q.block k) = none := by
  obtain ⟨hseq, -, -, -⟩ := Sequence.header_block hk
  simp only [FECDecoder.decoding, if_neg (not_passThrough hk), h.enterSequence_skipping hseq]

theorem At.addPacket_skipping (h : d.At q (.skipping G)) (hk : k < q.nPackets) :
    ∃ d', d.addPacket (q.block k) = .ok d' ∧ d'.At q (.skipping G) := by
  obtain ⟨hseq, -, -, -⟩ := Sequence.header_block hk
  refine ⟨{ d.countPacket (q.block k).pktLength with prevHeader := (q.block k).header }, ?_, ?_⟩
  · simp only [FECDecoder.addPacket, if_neg (not_passThrough hk), h.enterSequence_skipping hseq]
  · cases h with
    | skipping _ hholds => exact .skipping hseq ((hholds.countPacket _).setPrevHeader _)

/-- `addDataBlock` with its two decisions side by side. -/
theorem addDataBlock_eq (d : FECDecoder) (blk : FECBlock) : d.addDataBlock blk =
    let d' := { d with
      blockSize := max d.blockSize blk.blockSize
      blocks := d.blocks ++ [blk]
      outBlocks := d.outBlocks ++
        if d.blocks.length = blk.header.block then [(blk, blk.header.block)] else [] }
    if d.blocks.length + 1 = blk.header.nBlocks then d'.complete else d' := by
  have hlen : (d.blocks ++ [blk]).length = d.blocks.length + 1 := by simp
  simp only [FECDecoder.addDataBlock, hlen, Nat.add_sub_cancel]
  by_cases hrel : d.blocks.length = blk.header.block
  · simp only [if_pos hrel, hlen]
  · simp only [if_neg hrel, hlen, List.append_nil]

/-- A data block: released if no gap precedes it,
and the sequence is complete with the last one. -/
theorem Holds.addDataBlock (h : d.Holds q I G) (hk : k < q.nBlocks) :
    (d.addDataBlock (q.block k)).outBlocks = (if I.length = k then [(q.block k, k)] else []) ∧
      (d.addDataBlock (q.block k)).prevHeader = d.prevHeader ∧
      { d.addDataBlock (q.block k) with outBlocks := [] }.Holds q
        (if I.length + 1 = q.nBlocks then [] else I ++ [k])
        (if I.length + 1 = q.nBlocks then [] else G) := by
  obtain ⟨-, hb, hn, -⟩ := Sequence.header_block (Nat.lt_add_right q.nFecBlocks hk)
  have hlen : d.blocks.length = I.length := by rw [h.blocks, List.length_map]
  have hsize : max d.blockSize (q.block k).blockSize = q.heldSize (I ++ [k]) := by
    rw [h.blockSize, Sequence.blockSize_block hk, Sequence.heldSize_concat]
  have hblocks : d.blocks ++ [q.block k] = (I ++ [k]).map q.block := by
    rw [h.blocks, List.map_append, List.map_singleton]
  rw [addDataBlock_eq, hb, hn, hlen, h.outBlocks, List.nil_append]
  by_cases hfull : I.length + 1 = q.nBlocks
  · simp only [if_pos hfull]
    exact ⟨rfl, rfl, rfl, rfl, rfl, rfl⟩
  · simp only [if_neg hfull]
    exact ⟨trivial, trivial, hsize, hblocks, h.fecBlocks, rfl⟩

/-- `decode` fails or adds the released blocks to the output. -/
theorem decode_released (d : FECDecoder) :
    (∃ out d', d.released = .ok out ∧ d.decode = .ok d' ∧ d'.outBlocks = d.outBlocks ++ out ∧
      d'.prevHeader = d.prevHeader) ∨
    ∃ f, d.released = .error f ∧ d.decode = .error f := by
  rw [FECDecoder.released, FECDecoder.decode]
  cases hbl : d.blocks with
  | nil => exact .inl ⟨[], d, rfl, rfl, (List.append_nil _).symm, rfl⟩
  | cons b bl =>
      simp only
      by_cases hcount : (b :: bl).length + d.fecBlocks.length < b.header.nBlocks
      · rw [if_pos hcount, if_pos hcount]
        exact .inl ⟨[], _, rfl, rfl, (List.append_nil _).symm, rfl⟩
      · by_cases hoff : b.header.nBlocks = 0 ∨ b.header.nFecBlocks = 0
        · rw [if_neg hcount, if_neg hcount, if_pos hoff, if_pos hoff]
          exact .inl ⟨[], d, rfl, rfl, (List.append_nil _).symm, rfl⟩
        · rw [if_neg hcount, if_neg hcount, if_neg hoff, if_neg hoff]
          cases d.decodeBlocks b.header with
          | error f => exact .inr ⟨f, rfl, rfl⟩
          | ok r => exact .inl ⟨_, _, rfl, rfl, rfl, rfl⟩

/-- What is released depends on the working set only. -/
theorem Holds.released (h : d.Holds q I G) : d.released = q.rebuild I G := by
  obtain ⟨bs, ph, bl, fec, out, stats⟩ := d
  obtain ⟨rfl, rfl, rfl, rfl⟩ := h
  rfl

/-- An FEC block: the sequence is decoded when there are enough blocks. -/
theorem Holds.addFecBlock (h : d.Holds q I G) (hprev : d.prevHeader.seqNum = q.seqNum)
    (hk : k < q.nPackets) (hfec : ¬ k < q.nBlocks) :
    Run.Agree (fun d ph ↦ d.At q ph) (do
        let d ← d.addFecBlock (q.block k)
        .ok (d.outBlocks, { d with outBlocks := [] })) (Phase.step q (.collecting I G) k) := by
  obtain ⟨-, -, hn, -⟩ := Sequence.header_block hk
  have hholds : { d with fecBlocks := d.fecBlocks ++ [q.block k] }.Holds q I (G ++ [q.block k]) :=
    ⟨h.blockSize, h.blocks, by rw [h.fecBlocks], h.outBlocks⟩
  have hcount : d.blocks.length + (d.fecBlocks ++ [q.block k]).length =
      I.length + (G.length + 1) := by
    rw [h.blocks, h.fecBlocks, List.length_map, List.length_append, List.length_singleton]
  rw [FECDecoder.addFecBlock, Phase.step, if_neg hfec, hn]
  simp only [hcount]
  by_cases hfull : I.length + (G.length + 1) = q.nBlocks
  · rw [if_pos hfull, if_pos hfull, ← hholds.released]
    rcases decode_released { d with fecBlocks := d.fecBlocks ++ [q.block k] } with
      ⟨out, d', hrel, hdec, hout, hprev'⟩ | ⟨f, hrel, hdec⟩
    · rw [hrel, hdec]
      refine ⟨?_, .skipping ?_ ⟨rfl, rfl, rfl, rfl⟩⟩
      · exact hout.trans (by rw [h.outBlocks, List.nil_append])
      · exact (congrArg FECHeader.seqNum hprev').trans hprev
    · rw [hrel, hdec]
      rfl
  · rw [if_neg hfull, if_neg hfull]
    by_cases hI : I = []
    · subst hI
      exact ⟨h.outBlocks, .skipping hprev ⟨hholds.blockSize, hholds.blocks, hholds.fecBlocks, rfl⟩⟩
    · rw [if_neg hI]
      exact ⟨h.outBlocks, .collecting hI hprev
        ⟨hholds.blockSize, hholds.blocks, hholds.fecBlocks, rfl⟩⟩

/-- The decoder runs the machine of the phases. -/
theorem At.deliver {ph : Phase} (h : d.At q ph) (hk : k < q.nPackets) :
    Run.Agree (fun d ph ↦ d.At q ph) (d.deliver (q.packet k)) (ph.step q k) := by
  rw [FECDecoder.deliver, FECDecoder.addBlock, Sequence.ofPacket_packet, ok_bind]
  cases ph with
  | skipping G =>
      obtain ⟨d', hd', hat⟩ := h.addPacket_skipping hk
      rw [hd', ok_bind]
      cases hat with
      | skipping hprev hholds =>
          exact ⟨hholds.outBlocks, .skipping hprev
            ⟨hholds.blockSize, hholds.blocks, hholds.fecBlocks, rfl⟩⟩
  | collecting I G =>
      obtain ⟨d', hholds, hprev, hadd, -⟩ := h.addPacket hk
      rw [hadd, Phase.step]
      by_cases hdata : k < q.nBlocks
      · rw [if_pos hdata, if_pos hdata, ok_bind]
        obtain ⟨hout, hprev', hholds'⟩ := hholds.addDataBlock hdata
        refine ⟨hout, ?_⟩
        by_cases hfull : I.length + 1 = q.nBlocks
        · rw [if_pos hfull]
          rw [if_pos hfull, if_pos hfull] at hholds'
          exact .skipping (hprev'.symm ▸ hprev) hholds'
        · rw [if_neg hfull]
          rw [if_neg hfull, if_neg hfull] at hholds'
          exact .collecting (by simp) (hprev'.symm ▸ hprev) hholds'
      · rw [if_neg hdata]
        exact hholds.addFecBlock hprev hk hdata

/-- A run of packets of one sequence is a run of the phases. -/
theorem At.run {ph : Phase} (h : d.At q ph) (ks : List ℕ) (hks : ∀ k ∈ ks, k < q.nPackets) :
    Run.Agree (fun d ph ↦ d.At q ph) (Run.run FECDecoder.deliver d (ks.map q.packet))
      (Run.run (Phase.step q) ph ks) :=
  Run.run_agree (C := fun k ↦ k < q.nPackets) (fun _ _ _ hk hat ↦ hat.deliver hk) ks hks h

theorem At.prev_eq {ph : Phase} (h : d.At q ph) (hph : ph.Entered) :
    d.prevHeader.seqNum = q.seqNum := by
  cases h with
  | entry _ _ => exact absurd rfl hph
  | collecting _ hprev _ => exact hprev
  | skipping hprev _ => exact hprev

/-- A decoder in a phase of one sequence is between it and the next one. -/
theorem At.between {ph : Phase} (h : d.At q ph) : d.Between ph.leftover := by
  have hlt := q.seqNum_lt
  cases h with
  | entry _ hb => exact hb
  | collecting hI hprev hholds =>
      have hbs : d.blockSize ≠ 0 := by
        have := q.two_le_heldSize hI
        rw [hholds.blockSize]
        omega
      obtain ⟨i, I, rfl⟩ := List.exists_cons_of_ne_nil hI
      exact ⟨by omega, fun h0 ↦ absurd h0 hbs, if_neg hbs, hholds.outBlocks⟩
  | skipping hprev hholds =>
      exact ⟨by omega, fun _ ↦ hholds.blocks, (if_pos hholds.blockSize).trans hholds.fecBlocks,
        hholds.outBlocks⟩

end FECDecoder

end WfbBridge
