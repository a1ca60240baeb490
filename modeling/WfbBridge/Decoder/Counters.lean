import Mathlib
import WfbBridge.Decoder.Safety

/-!
# The counters of the decoder

What one packet adds to `dropped_packets`, `dropped_blocks` and `total_blocks`.  Three statements
add to `dropped_packets`; only one of them runs if the packet belongs to the sequence of the last
one, and two if it does not and that sequence is in progress.
-/

namespace WfbBridge

open Checked

/-! ## The packets that are lost -/

/-- The packets before packet `k` that are lost, when those at the positions `keep` arrive. -/
def lostBefore (keep : List ℕ) (k : ℕ) : ℕ := (List.range k).countP (· ∉ keep)

section Lost

variable {keep pre : List ℕ} {k : ℕ}

/-- What arrived and what did not are all packets before `k`. -/
theorem lostBefore_add_filter (hsorted : keep.Pairwise (· < ·)) (k : ℕ) :
    lostBefore keep k + (keep.filter (· < k)).length = k := by
  have hcount : (List.range k).countP (· ∈ keep) = (keep.filter (· < k)).length := by
    rw [List.countP_eq_length_filter]
    refine List.Perm.length_eq ((List.perm_ext_iff_of_nodup (List.nodup_range.filter _)
      ((hsorted.imp Nat.ne_of_lt).filter _)).mpr fun i ↦ ?_)
    simp only [List.mem_filter, List.mem_range, decide_eq_true_eq]
    exact And.comm
  have hsplit := List.length_eq_countP_add_countP (· ∈ keep) (l := List.range k)
  have hnot : lostBefore keep k = (List.range k).countP fun i ↦ ¬decide (i ∈ keep) = true :=
    List.countP_congr fun i _ ↦ by simp
  rw [hcount, List.length_range, ← hnot] at hsplit
  omega

theorem lostBefore_add_length (hsorted : keep.Pairwise (· < ·)) (hpre : pre ++ [k] <+: keep) :
    lostBefore keep k + pre.length = k := by
  have hall := lostBefore_add_filter hsorted k
  obtain ⟨post, rfl⟩ := hpre
  obtain ⟨hpre, -, hpost⟩ := List.pairwise_append.mp hsorted
  have hlt : pre.filter (· < k) = pre := List.filter_eq_self.mpr fun i hi ↦
    decide_eq_true ((List.pairwise_append.mp hpre).2.2 i hi k (by simp))
  have hgt : post.filter (· < k) = [] := List.filter_eq_nil_iff.mpr fun i hi hik ↦
    (hpost k (by simp) i hi).not_gt (of_decide_eq_true hik)
  rw [List.filter_append, List.filter_append, hlt, hgt, List.filter_singleton] at hall
  simpa using hall

end Lost

namespace FECDecoder

variable {d d' : FECDecoder} {blk : FECBlock} {h : FECHeader}

/-- `pbn` of a break in the sequence. -/
def prevPacket (d : FECDecoder) (h : FECHeader) : ℕ :=
  d.prevHeader.seqNum * (h.nBlocks + h.nFecBlocks) + d.prevHeader.block

/-- `bn` of a break in the sequence. -/
def breakPacket (d : FECDecoder) (h : FECHeader) : ℕ :=
  unrolledSeq d.prevHeader.seqNum h.seqNum * (h.nBlocks + h.nFecBlocks) + h.block

/-- The packets that a break in the sequence adds to `dropped_packets`. -/
def brokenPackets (d : FECDecoder) (h : FECHeader) : ℕ :=
  if d.blockSize = 0 then 0 else d.breakPacket h - d.prevPacket h

/-- The sequences that a break in the sequence adds to `dropped_blocks`. -/
def brokenBlocks (d : FECDecoder) (seqNum : ℕ) : ℕ :=
  if d.blockSize = 0 then 0 else unrolledSeq d.prevHeader.seqNum seqNum - d.prevHeader.seqNum

/-! ## Entering a sequence -/

/-- The counters at a break: the unrolled number is never below the last one. -/
theorem countBreak_stats (hprev : d.prevHeader.seqNum < 256) :
    (d.countBreak h).stats.droppedPackets =
        d.stats.droppedPackets + (d.breakPacket h - d.prevPacket h) ∧
      (d.countBreak h).stats.droppedBlocks = d.stats.droppedBlocks +
        (unrolledSeq d.prevHeader.seqNum h.seqNum - d.prevHeader.seqNum) ∧
      (d.countBreak h).stats.totalBlocks = d.stats.totalBlocks := by
  have hge : ¬unrolledSeq d.prevHeader.seqNum h.seqNum < d.prevHeader.seqNum := by
    rw [unrolledSeq]
    split <;> omega
  simp only [countBreak, if_neg hge, breakPacket, prevPacket]
  split
  case isTrue => exact ⟨rfl, rfl, rfl⟩
  case isFalse hle =>
      refine ⟨?_, rfl, rfl⟩
      have hzero := Nat.sub_eq_zero_of_le (Nat.le_of_not_lt hle)
      rw [hzero, Nat.add_zero]
      rfl

/-- At the start of a sequence, `countSkipped` adds the packets before this one. -/
theorem countSkipped_start (h0 : d.blockSize = 0) :
    (d.countSkipped h).stats = (d.dropPackets h.block).stats := by
  rw [countSkipped]
  by_cases hblock : 0 < h.block
  · rw [if_pos ⟨h0, hblock⟩]
  · rw [if_neg fun hc ↦ hblock hc.2, Nat.eq_zero_of_not_pos hblock]
    rfl

theorem countSkipped_of_ne (h0 : d.blockSize ≠ 0) : d.countSkipped h = d :=
  if_neg fun hc ↦ h0 hc.1

/-- The counters when the first packet of a sequence is handled. -/
theorem enterSequence_stats_new (hprev : d.prevHeader.seqNum < 256)
    (hne : h.seqNum ≠ d.prevHeader.seqNum) :
    ∃ e, d.enterSequence h = some e ∧
      ({ e with prevHeader := h }.countSkipped h).stats.droppedPackets =
        d.stats.droppedPackets + d.brokenPackets h + h.block ∧
      ({ e with prevHeader := h }.countSkipped h).stats.droppedBlocks =
        d.stats.droppedBlocks + d.brokenBlocks h.seqNum ∧
      ({ e with prevHeader := h }.countSkipped h).stats.totalBlocks = d.stats.totalBlocks := by
  have hseq : ¬d.prevHeader.seqNum = unrolledSeq d.prevHeader.seqNum h.seqNum :=
    fun heq ↦ hne ((unrolledSeq_eq hprev).mp heq.symm)
  by_cases h0 : d.blockSize = 0
  · have henter : d.enterSequence h = some d := by
      rw [enterSequence, if_neg (not_not_intro h0), if_neg hseq]
    have hstats := countSkipped_start (d := { d with prevHeader := h }) (h := h) h0
    refine ⟨d, henter, ?_, ?_, ?_⟩
    · rw [hstats, brokenPackets, if_pos h0, Nat.add_zero]
      rfl
    · rw [hstats, brokenBlocks, if_pos h0, Nat.add_zero]
      rfl
    · rw [hstats]
      rfl
  · have henter : d.enterSequence h = some (d.countBreak h).reset := by
      rw [enterSequence, if_pos h0, if_pos hseq]
    obtain ⟨hpackets, hblocks, htotal⟩ := countBreak_stats (h := h) hprev
    have hstats :=
      countSkipped_start (d := { (d.countBreak h).reset with prevHeader := h }) (h := h) rfl
    refine ⟨_, henter, ?_, ?_, ?_⟩
    · rw [hstats, brokenPackets, if_neg h0]
      exact congrArg (· + h.block) hpackets
    · rw [hstats, brokenBlocks, if_neg h0]
      exact hblocks
    · rw [hstats]
      exact htotal

/-- The counters when a packet of the sequence in progress is handled. -/
theorem enterSequence_stats_same (h0 : d.blockSize ≠ 0) (hseq : h.seqNum = d.prevHeader.seqNum)
    (hblock : d.prevHeader.block < h.block) :
    ∃ e, d.enterSequence h = some e ∧
      ({ e with prevHeader := h }.countSkipped h).stats.droppedPackets =
        d.stats.droppedPackets + (h.block - d.prevHeader.block - 1) ∧
      ({ e with prevHeader := h }.countSkipped h).stats.droppedBlocks = d.stats.droppedBlocks ∧
      ({ e with prevHeader := h }.countSkipped h).stats.totalBlocks = d.stats.totalBlocks := by
  have heq : ¬d.prevHeader.seqNum ≠ unrolledSeq d.prevHeader.seqNum h.seqNum := by
    rw [hseq, unrolledSeq, if_neg (lt_irrefl _)]
    exact not_not_intro rfl
  have henter : d.enterSequence h = some (d.dropPackets (h.block - d.prevHeader.block - 1)) := by
    rw [enterSequence, if_pos h0, if_neg heq, if_neg hblock.not_ge]
  have hstats := countSkipped_of_ne (h := h)
    (d := { d.dropPackets (h.block - d.prevHeader.block - 1) with prevHeader := h }) h0
  refine ⟨_, henter, ?_, ?_, ?_⟩ <;> rw [hstats] <;> rfl

/-- A packet of a sequence that is not in progress any more. -/
theorem enterSequence_over (h0 : d.blockSize = 0) (hseq : h.seqNum = d.prevHeader.seqNum) :
    d.enterSequence h = none := by
  have heq : d.prevHeader.seqNum = unrolledSeq d.prevHeader.seqNum h.seqNum := by
    rw [hseq, unrolledSeq, if_neg (lt_irrefl _)]
  rw [enterSequence, if_neg (not_not_intro h0), if_pos heq]

/-! ## The two kinds of blocks -/

/-- `decode` does not count packets or complete sequences. -/
theorem decode_stats (hd : d.decode = .ok d') :
    d'.stats.droppedPackets = d.stats.droppedPackets ∧
      d'.stats.totalBlocks = d.stats.totalBlocks := by
  rw [decode] at hd
  cases hbl : d.blocks with
  | nil =>
      simp only [hbl] at hd
      rw [Except.ok.inj hd]
      exact ⟨rfl, rfl⟩
  | cons b bl =>
      simp only [hbl] at hd
      split at hd
      · rw [← Except.ok.inj hd]
        exact ⟨rfl, rfl⟩
      split at hd
      · rw [Except.ok.inj hd]
        exact ⟨rfl, rfl⟩
      · obtain ⟨r, -, hd⟩ := bind_eq_ok.mp hd
        rw [← Except.ok.inj hd]
        exact ⟨rfl, rfl⟩

theorem addDataBlock_stats (d : FECDecoder) (blk : FECBlock) :
    (d.addDataBlock blk).stats = { d.stats with totalBlocks := d.stats.totalBlocks +
      if d.blocks.length + 1 = blk.header.nBlocks then 1 else 0 } := by
  rw [addDataBlock_eq]
  by_cases hfull : d.blocks.length + 1 = blk.header.nBlocks
  · simp only [if_pos hfull]
    rfl
  · simp only [if_neg hfull]
    rfl

theorem addFecBlock_droppedPackets (hd : d.addFecBlock blk = .ok d') :
    d'.stats.droppedPackets = d.stats.droppedPackets := by
  simp only [addFecBlock] at hd
  split at hd
  · obtain ⟨e, hdecode, hd⟩ := bind_eq_ok.mp hd
    rw [← Except.ok.inj hd]
    exact (decode_stats hdecode).1
  · rw [← Except.ok.inj hd]

/-! ## Sequences that are completed -/

/-- A packet of the sequence in progress does not count sequences. -/
theorem enterSequence_blocks_same (h0 : d.blockSize ≠ 0) (hseq : h.seqNum = d.prevHeader.seqNum)
    {e : FECDecoder} (henter : d.enterSequence h = some e) :
    ({ e with prevHeader := h }.countSkipped h).stats.droppedBlocks = d.stats.droppedBlocks ∧
      ({ e with prevHeader := h }.countSkipped h).stats.totalBlocks = d.stats.totalBlocks := by
  have heq : ¬d.prevHeader.seqNum ≠ unrolledSeq d.prevHeader.seqNum h.seqNum := by
    rw [hseq, unrolledSeq, if_neg (lt_irrefl _)]
    exact not_not_intro rfl
  rw [enterSequence, if_pos h0, if_neg heq] at henter
  have hdrop : ∃ n, d.dropPackets n = e := by
    split at henter
    · exact ⟨_, Option.some.inj henter⟩
    · exact ⟨_, Option.some.inj henter⟩
  obtain ⟨n, rfl⟩ := hdrop
  rw [countSkipped_of_ne (d := { d.dropPackets n with prevHeader := h }) h0]
  exact ⟨rfl, rfl⟩

/-- The blocks of `decode` are one for each data block of the sequence. -/
theorem decodeBlocks_spec {first : ℕ} {bs : List FECBlock}
    (hdec : d.decodeBlocks h = .ok (first, bs)) :
    (erasedIdxs (d.slots h.nBlocks)).head? = some first ∧ bs.length ≤ h.nBlocks := by
  simp only [decodeBlocks] at hdec
  split at hdec
  · cases hdec
  cases herased : erasedIdxs (d.slots h.nBlocks) with
  | nil => simp [herased] at hdec
  | cons first' rest =>
      simp only [herased] at hdec
      obtain ⟨rebuilt, -, hdec⟩ := bind_eq_ok.mp hdec
      obtain ⟨bytes, -, hdec⟩ := bind_eq_ok.mp hdec
      obtain ⟨rfl, rfl⟩ := Prod.mk.inj (Except.ok.inj hdec)
      refine ⟨rfl, ?_⟩
      rw [List.length_zipWith, List.length_map, (d.slots_spec h.nBlocks).1]
      exact Nat.min_le_left _ _

/-- If `decode` releases all blocks from the first missing one on, it counts none as dropped. -/
theorem decode_droppedBlocks {b : FECBlock} {bl : List FECBlock} (hbl : d.blocks = b :: bl)
    {first : ℕ} (hfirst : (erasedIdxs (d.slots b.header.nBlocks)).head? = some first)
    {out : List (FECBlock × ℕ)} (hrel : d.released = .ok out)
    (hall : b.header.nBlocks ≤ first + out.length) (hdec : d.decode = .ok d') :
    d'.stats.droppedBlocks = d.stats.droppedBlocks := by
  rw [decode] at hdec
  rw [released] at hrel
  simp only [hbl] at hdec hrel
  by_cases hcount : (b :: bl).length + d.fecBlocks.length < b.header.nBlocks
  · rw [if_pos hcount] at hdec
    rw [← Except.ok.inj hdec]
    rfl
  by_cases hoff : b.header.nBlocks = 0 ∨ b.header.nFecBlocks = 0
  · rw [if_neg hcount, if_pos hoff] at hdec
    rw [Except.ok.inj hdec]
  rw [if_neg hcount, if_neg hoff] at hdec hrel
  obtain ⟨⟨first', bs⟩, hblocks, hdec⟩ := bind_eq_ok.mp hdec
  rw [hblocks, ok_bind] at hrel
  obtain ⟨hfirst', hlen⟩ := decodeBlocks_spec hblocks
  obtain rfl : first' = first := Option.some.inj (hfirst'.symm.trans hfirst)
  have hout := congrArg List.length (Except.ok.inj hrel)
  have hrem : (bs.zipIdx.drop first').length = bs.length - first' := by
    rw [List.length_drop, List.length_zipIdx]
  rw [← Except.ok.inj hdec]
  change d.stats.droppedBlocks + ((bs.zipIdx.drop first').length - _) = _
  rw [hout, hrem]
  omega

/-- An FEC block, when `decode` counts no block as dropped. -/
theorem addFecBlock_blocks (hd : d.addFecBlock blk = .ok d')
    (hdrop : d.blocks.length + (d.fecBlocks.length + 1) = blk.header.nBlocks → ∀ e,
      decode { d with fecBlocks := d.fecBlocks ++ [blk] } = .ok e →
      e.stats.droppedBlocks = d.stats.droppedBlocks) :
    d'.stats.droppedBlocks = d.stats.droppedBlocks ∧ d'.stats.totalBlocks = d.stats.totalBlocks +
      if d.blocks.length + (d.fecBlocks.length + 1) = blk.header.nBlocks then 1 else 0 := by
  simp only [addFecBlock, List.length_append, List.length_singleton] at hd
  by_cases hfull : d.blocks.length + (d.fecBlocks.length + 1) = blk.header.nBlocks
  · rw [if_pos hfull] at hd ⊢
    obtain ⟨e, hdecode, hd⟩ := bind_eq_ok.mp hd
    rw [← Except.ok.inj hd]
    exact ⟨hdrop hfull e hdecode, congrArg (· + 1) (decode_stats hdecode).2⟩
  · rw [if_neg hfull] at hd ⊢
    rw [← Except.ok.inj hd]
    exact ⟨rfl, rfl⟩

end FECDecoder

end WfbBridge
