import Mathlib
import WfbBridge.Decoder.Unrecovered

/-!
# Packets that arrive more than once

A relay sends every packet again, so copies of a packet may follow it.  The decoder
counts blocks, not block numbers, and so a copy is one more block of the sequence in
progress; it is harmless only while no sequence is in progress, that is while
`m_block_size` is 0.

Two runs are compared, with and without the copies.  `SameWork` relates the decoders
of the two: they differ in the statistics and in the fields only these read.
-/

namespace WfbBridge

open Checked

namespace FECDecoder

/-- Equal but for the statistics and what only the statistics read. -/
structure SameWork (d d' : FECDecoder) : Prop where
  blockSize : d.blockSize = d'.blockSize
  blocks : d.blocks = d'.blocks
  fecBlocks : d.fecBlocks = d'.fecBlocks
  outBlocks : d.outBlocks = d'.outBlocks
  seqNum : d.prevHeader.seqNum = d'.prevHeader.seqNum

namespace SameWork

variable {d d' d'' : FECDecoder}

theorem refl (d : FECDecoder) : d.SameWork d := ⟨rfl, rfl, rfl, rfl, rfl⟩

theorem symm (h : d.SameWork d') : d'.SameWork d :=
  ⟨h.blockSize.symm, h.blocks.symm, h.fecBlocks.symm, h.outBlocks.symm, h.seqNum.symm⟩

theorem trans (h : d.SameWork d') (h' : d'.SameWork d'') : d.SameWork d'' :=
  ⟨h.blockSize.trans h'.blockSize, h.blocks.trans h'.blocks, h.fecBlocks.trans h'.fecBlocks,
    h.outBlocks.trans h'.outBlocks, h.seqNum.trans h'.seqNum⟩

theorem dropPackets (d : FECDecoder) (n : ℕ) : (d.dropPackets n).SameWork d :=
  ⟨rfl, rfl, rfl, rfl, rfl⟩

theorem countPacket (d : FECDecoder) (n : ℕ) : (d.countPacket n).SameWork d :=
  ⟨rfl, rfl, rfl, rfl, rfl⟩

theorem countBreak (d : FECDecoder) (h : FECHeader) : (d.countBreak h).SameWork d := by
  simp only [FECDecoder.countBreak]
  split_ifs <;> exact ⟨rfl, rfl, rfl, rfl, rfl⟩

theorem countSkipped (d : FECDecoder) (h : FECHeader) : (d.countSkipped h).SameWork d := by
  rw [FECDecoder.countSkipped]
  split
  · exact dropPackets d _
  · exact refl d

theorem reset (h : d.SameWork d') : d.reset.SameWork d'.reset :=
  ⟨rfl, rfl, rfl, h.outBlocks, h.seqNum⟩

theorem setPrevHeader (h : d.SameWork d') (hdr : FECHeader) :
    { d with prevHeader := hdr }.SameWork { d' with prevHeader := hdr } :=
  ⟨h.blockSize, h.blocks, h.fecBlocks, h.outBlocks, rfl⟩

/-- Both decoders skip the packet, or both go on with it. -/
theorem enterSequence (h : d.SameWork d') (hdr : FECHeader) :
    (d.enterSequence hdr = none ∧ d'.enterSequence hdr = none) ∨
    ∃ e e', d.enterSequence hdr = some e ∧ d'.enterSequence hdr = some e' ∧ e.SameWork e' := by
  simp only [FECDecoder.enterSequence, h.blockSize, h.seqNum]
  by_cases hsize : d'.blockSize = 0
  · simp only [hsize, ne_eq, not_true_eq_false, if_false]
    by_cases hseq : d'.prevHeader.seqNum = unrolledSeq d'.prevHeader.seqNum hdr.seqNum
    · simp only [← hseq, if_true]
      exact .inl ⟨trivial, trivial⟩
    · simp only [hseq, if_false]
      exact .inr ⟨d, d', rfl, rfl, h⟩
  · simp only [hsize, ne_eq, not_false_eq_true, if_true]
    apply Or.inr
    by_cases hseq : d'.prevHeader.seqNum = unrolledSeq d'.prevHeader.seqNum hdr.seqNum
    · simp only [← hseq, not_true_eq_false, if_false]
      -- the branches left differ in how many packets they count as dropped
      have hdrop : ∀ m n, (d.dropPackets m).SameWork (d'.dropPackets n) := fun m n ↦
        (dropPackets d m).trans (h.trans (dropPackets d' n).symm)
      split <;> split <;> exact ⟨_, _, rfl, rfl, hdrop _ _⟩
    · simp only [hseq, not_false_eq_true, if_true]
      exact ⟨_, _, rfl, rfl, ((countBreak d hdr).trans (h.trans (countBreak d' hdr).symm)).reset⟩

theorem addDataBlock (h : d.SameWork d') (blk : FECBlock) :
    (d.addDataBlock blk).SameWork (d'.addDataBlock blk) := by
  rw [addDataBlock_eq, addDataBlock_eq]
  simp only [h.blocks, h.blockSize, h.outBlocks]
  split
  · exact ⟨rfl, rfl, rfl, rfl, h.seqNum⟩
  · exact ⟨rfl, rfl, h.fecBlocks, rfl, h.seqNum⟩

/-- What `decode` releases is the same. -/
theorem released (h : d.SameWork d') : d.released = d'.released := by
  obtain ⟨_, _, _, _, _, _⟩ := d
  obtain ⟨_, _, _, _, _, _⟩ := d'
  obtain ⟨rfl, rfl, rfl, rfl, _⟩ := h
  rfl

theorem decode (h : d.SameWork d') :
    (∃ e e', d.decode = .ok e ∧ d'.decode = .ok e' ∧ e.complete.SameWork e'.complete) ∨
    ∃ f, d.decode = .error f ∧ d'.decode = .error f := by
  have hrel := h.released
  rcases decode_released d with ⟨out, e, hout, hdec, houts, hprev⟩ | ⟨f, hf, hdec⟩ <;>
    rcases decode_released d' with ⟨out', e', hout', hdec', houts', hprev'⟩ | ⟨f', hf', hdec'⟩
  · rw [hout, hout'] at hrel
    obtain rfl := Except.ok.inj hrel
    refine .inl ⟨e, e', hdec, hdec', rfl, rfl, rfl, ?_, ?_⟩
    · exact houts.trans ((congrArg (· ++ out) h.outBlocks).trans houts'.symm)
    · change e.prevHeader.seqNum = e'.prevHeader.seqNum
      rw [hprev, hprev', h.seqNum]
  · rw [hout, hf'] at hrel
    cases hrel
  · rw [hf, hout'] at hrel
    cases hrel
  · rw [hf, hf'] at hrel
    obtain rfl := Except.error.inj hrel
    exact .inr ⟨f, hdec, hdec'⟩

theorem addFecBlock (h : d.SameWork d') (blk : FECBlock) :
    (∃ e e', d.addFecBlock blk = .ok e ∧ d'.addFecBlock blk = .ok e' ∧ e.SameWork e') ∨
    ∃ f, d.addFecBlock blk = .error f ∧ d'.addFecBlock blk = .error f := by
  have hwith : { d with fecBlocks := d.fecBlocks ++ [blk] }.SameWork
      { d' with fecBlocks := d'.fecBlocks ++ [blk] } :=
    ⟨h.blockSize, h.blocks, congrArg (· ++ [blk]) h.fecBlocks, h.outBlocks, h.seqNum⟩
  have hcount : d.blocks.length + (d.fecBlocks ++ [blk]).length =
      d'.blocks.length + (d'.fecBlocks ++ [blk]).length := by rw [h.blocks, h.fecBlocks]
  rw [FECDecoder.addFecBlock, FECDecoder.addFecBlock]
  simp only [hcount]
  by_cases hfull : d'.blocks.length + (d'.fecBlocks ++ [blk]).length = blk.header.nBlocks
  · simp only [if_pos hfull]
    rcases hwith.decode with ⟨e, e', he, he', hsame⟩ | ⟨f, hf, hf'⟩
    · rw [he, he']
      exact .inl ⟨_, _, rfl, rfl, hsame⟩
    · rw [hf, hf']
      exact .inr ⟨f, rfl, rfl⟩
  · simp only [if_neg hfull]
    exact .inl ⟨_, _, rfl, rfl, hwith⟩

/-- The same packet does the same to both. -/
theorem addPacket (h : d.SameWork d') (blk : FECBlock) :
    (∃ e e', d.addPacket blk = .ok e ∧ d'.addPacket blk = .ok e' ∧ e.SameWork e') ∨
    ∃ f, d.addPacket blk = .error f ∧ d'.addPacket blk = .error f := by
  have hcount : (d.countPacket blk.pktLength).SameWork (d'.countPacket blk.pktLength) :=
    (countPacket d _).trans (h.trans (countPacket d' _).symm)
  rw [FECDecoder.addPacket, FECDecoder.addPacket]
  by_cases hoff : blk.header.nBlocks = 0 ∨ blk.header.nFecBlocks = 0
  · simp only [if_pos hoff]
    exact .inl ⟨_, _, rfl, rfl, h.blockSize, h.blocks, h.fecBlocks,
      congrArg (· ++ [(blk, blk.header.block)]) h.outBlocks, rfl⟩
  · simp only [if_neg hoff]
    rcases hcount.enterSequence blk.header with ⟨henter, henter'⟩ | ⟨e, e', henter, henter', hsame⟩
    · simp only [henter, henter']
      exact .inl ⟨_, _, rfl, rfl, hcount.setPrevHeader _⟩
    · simp only [henter, henter']
      have hskip : ({ e with prevHeader := blk.header }.countSkipped blk.header).SameWork
          ({ e' with prevHeader := blk.header }.countSkipped blk.header) :=
        (countSkipped _ _).trans ((hsame.setPrevHeader _).trans (countSkipped _ _).symm)
      by_cases hdata : blk.isDataBlock
      · simp only [if_pos hdata]
        exact .inl ⟨_, _, rfl, rfl, hskip.addDataBlock blk⟩
      · simp only [if_neg hdata]
        exact hskip.addFecBlock blk

theorem deliver (h : d.SameWork d') (pkt : List UInt8) :
    Run.Agree SameWork (d.deliver pkt) (d'.deliver pkt) := by
  rw [FECDecoder.deliver, FECDecoder.deliver, FECDecoder.addBlock, FECDecoder.addBlock]
  cases FECBlock.ofPacket pkt with
  | error f => rfl
  | ok blk =>
      rw [ok_bind, ok_bind]
      rcases h.addPacket blk with ⟨e, e', he, he', hsame⟩ | ⟨f, hf, hf'⟩
      · rw [he, he']
        exact ⟨hsame.outBlocks, hsame.blockSize, hsame.blocks, hsame.fecBlocks, rfl, hsame.seqNum⟩
      · rw [hf, hf']
        rfl

end SameWork

/-- A packet of the last sequence, while no sequence is in progress, is skipped. -/
theorem deliver_idle {d : FECDecoder} {q : Sequence} {k : ℕ} (hk : k < q.nPackets)
    (hprev : d.prevHeader.seqNum = q.seqNum) (hsize : d.blockSize = 0) (hout : d.outBlocks = []) :
    ∃ d', d.deliver (q.packet k) = .ok ([], d') ∧ d'.SameWork d := by
  have hseq := (Sequence.header_block hk).1
  have henter : (d.countPacket (q.block k).pktLength).enterSequence (q.block k).header = none := by
    have heq : d.prevHeader.seqNum = unrolledSeq d.prevHeader.seqNum (q.block k).header.seqNum := by
      rw [hseq, hprev, unrolledSeq, if_neg (lt_irrefl _)]
    simp only [enterSequence, countPacket, hsize, ← heq, ne_eq, not_true_eq_false, if_true,
      if_false]
  refine ⟨{ d.countPacket (q.block k).pktLength with
    prevHeader := (q.block k).header
    outBlocks := [] }, ?_, rfl, rfl, rfl, hout.symm, hseq.trans hprev.symm⟩
  rw [deliver, addBlock, Sequence.ofPacket_packet, ok_bind, addPacket]
  simp only [if_neg (not_passThrough hk), henter, ok_bind]
  rw [show (d.countPacket (q.block k).pktLength).outBlocks = [] from hout]

/-- The blocks a list of packets puts out. -/
def feed (d : FECDecoder) (pkts : List (List UInt8)) :
    Except Fault (List (FECBlock × ℕ) × FECDecoder) := do
  let (outs, d) ← Run.run deliver d pkts
  .ok (outs.flatten, d)

theorem feed_cons (d : FECDecoder) (pkt : List UInt8) (pkts : List (List UInt8)) :
    d.feed (pkt :: pkts) = (do
      let (out, d) ← d.deliver pkt
      let (outs, d) ← d.feed pkts
      .ok (out ++ outs, d)) := by
  rw [feed, Run.run]
  cases d.deliver pkt with
  | error f => rfl
  | ok r =>
      obtain ⟨out, e⟩ := r
      simp only [ok_bind, feed]
      cases Run.run deliver e pkts <;> rfl

theorem feed_append (d : FECDecoder) (pkts pkts' : List (List UInt8)) :
    d.feed (pkts ++ pkts') = (do
      let (outs, d) ← d.feed pkts
      let (outs', d) ← d.feed pkts'
      .ok (outs ++ outs', d)) := by
  rw [feed, Run.run_append, feed]
  cases Run.run deliver d pkts with
  | error f => rfl
  | ok r =>
      obtain ⟨outs, e⟩ := r
      simp only [ok_bind, feed]
      cases Run.run deliver e pkts' with
      | error f => rfl
      | ok r' => simp [List.flatten_append]

end FECDecoder

/-- The packets of a sequence that arrive, some of them more than once: an arrival is the number
of a packet and whether it is a copy. -/
structure Repeated where
  orig : Reception
  arrivals : List (ℕ × Bool)
  originals : (arrivals.filter fun a ↦ !a.2).map Prod.fst = orig.got
  copies : ∀ a ∈ arrivals.zipIdx, a.1.2 = true → (a.1.1, false) ∈ arrivals.take a.2

namespace Repeated

/-- The packets, as they are given to the decoder. -/
def packets (r : Repeated) : List (List UInt8 × Bool) :=
  r.arrivals.map fun a ↦ (r.orig.seq.packet a.1, a.2)

variable {r : Repeated}

theorem arrival_lt {a : ℕ × Bool} (ha : a ∈ r.arrivals) : a.1 < r.orig.seq.nPackets := by
  have horig : (a.1, false) ∈ r.arrivals := by
    obtain ⟨k, copy⟩ := a
    cases copy with
    | false => exact ha
    | true =>
        obtain ⟨i, hi⟩ := List.mem_iff_getElem?.mp ha
        have hmem : ((k, true), i) ∈ r.arrivals.zipIdx := List.mem_zipIdx_iff_getElem?.mpr hi
        exact List.mem_of_mem_take (r.copies _ hmem rfl)
  refine Reception.got_lt (r := r.orig) ?_
  rw [← r.originals]
  exact List.mem_map.mpr ⟨_, List.mem_filter.mpr ⟨horig, rfl⟩, rfl⟩

theorem head_original {a : ℕ × Bool} {rest : List (ℕ × Bool)} (h : r.arrivals = a :: rest) :
    a.2 = false := by
  cases hcopy : a.2 with
  | false => rfl
  | true =>
      have hmem : (a, 0) ∈ r.arrivals.zipIdx := by rw [h]; simp
      exact absurd (r.copies _ hmem hcopy) (by simp)

end Repeated

namespace FECDecoder

/-- A packet or a copy of one: the decoder cannot tell. -/
def deliverEither (d : FECDecoder) (a : List UInt8 × Bool) :
    Except Fault (List (FECBlock × ℕ) × FECDecoder) := d.deliver a.1

/-- A copy arrives while no sequence is in progress. -/
def CopyIdle (d : FECDecoder) (a : List UInt8 × Bool) : Prop := a.2 = true → d.blockSize = 0

instance (d : FECDecoder) (a : List UInt8 × Bool) : Decidable (d.CopyIdle a) :=
  inferInstanceAs (Decidable (_ → _))

/-- One sequence: the copies make no difference. -/
theorem SameWork.feed {d d' : FECDecoder} {q : Sequence} (arrivals : List (ℕ × Bool))
    (hlt : ∀ a ∈ arrivals, a.1 < q.nPackets)
    (hhead : ∀ a ∈ arrivals.head?, a.2 = true → d.prevHeader.seqNum = q.seqNum)
    (hidle : Run.Along deliverEither CopyIdle d (arrivals.map fun a ↦ (q.packet a.1, a.2)))
    (hd : d.Steady) (h : d.SameWork d') :
    Run.Agree (fun e e' ↦ e.SameWork e' ∧ e.Steady) (d.feed (arrivals.map fun a ↦ q.packet a.1))
      (d'.feed (((arrivals.filter fun a ↦ !a.2).map Prod.fst).map q.packet)) := by
  induction arrivals generalizing d d' with
  | nil => exact ⟨rfl, h, hd⟩
  | cons a arrivals ih =>
      obtain ⟨k, copy⟩ := a
      have hk := hlt _ List.mem_cons_self
      have hlt' := fun a ha ↦ hlt a (List.mem_cons_of_mem _ ha)
      rw [List.map_cons] at hidle
      rw [List.map_cons, feed_cons]
      cases copy with
      | true =>
          obtain ⟨e, he, hsame⟩ := deliver_idle hk (hhead _ rfl rfl) (hidle.1 rfl) hd.outBlocks
          obtain ⟨hsteady, hprev⟩ := hd.deliver hk he
          have hrest := ih hlt' (fun _ _ _ ↦ hprev) (hidle.2 _ e he) hsteady (hsame.trans h)
          have hnil : (do
              let (outs, d) ← e.feed (arrivals.map fun a ↦ q.packet a.1)
              .ok ([] ++ outs, d)) = e.feed (arrivals.map fun a ↦ q.packet a.1) := by
            cases e.feed (arrivals.map fun a ↦ q.packet a.1) <;> rfl
          rw [he, ok_bind]
          change Run.Agree _ (do
            let (outs, d) ← e.feed (arrivals.map fun a ↦ q.packet a.1)
            .ok ([] ++ outs, d)) _
          rw [hnil]
          exact hrest
      | false =>
          change Run.Agree _ _ (d'.feed (q.packet k :: _))
          rw [feed_cons]
          refine (h.deliver (q.packet k)).bind fun out e e' hdel hsame ↦ ?_
          obtain ⟨hsteady, hprev⟩ := hd.deliver hk hdel
          have hrest := ih hlt' (fun _ _ _ ↦ hprev) (hidle.2 _ e hdel) hsteady hsame
          exact hrest.bind fun outs e₁ e₁' _ hend ↦ ⟨rfl, hend⟩

/-- Any number of sequences. -/
theorem SameWork.feed_all {d d' : FECDecoder} (rs : List Repeated)
    (hidle : Run.Along deliverEither CopyIdle d (rs.flatMap Repeated.packets))
    (hd : d.Steady) (h : d.SameWork d') :
    Run.Agree SameWork (d.feed ((rs.flatMap Repeated.packets).map Prod.fst))
      (d'.feed (rs.flatMap fun r ↦ r.orig.packets)) := by
  induction rs generalizing d d' with
  | nil => exact ⟨rfl, h⟩
  | cons r rs ih =>
      rw [List.flatMap_cons] at hidle
      obtain ⟨hfirst, hrest⟩ := Run.along_append.mp hidle
      have hpkts : r.packets.map Prod.fst = r.arrivals.map fun a ↦ r.orig.seq.packet a.1 := by
        rw [Repeated.packets, List.map_map]
        rfl
      rw [List.flatMap_cons, List.flatMap_cons, List.map_append, feed_append, feed_append, hpkts,
        Reception.packets, ← r.originals]
      have hhead : ∀ a ∈ r.arrivals.head?, a.2 = true →
          d.prevHeader.seqNum = r.orig.seq.seqNum := by
        intro a ha hcopy
        obtain ⟨rest, hrest⟩ := List.head?_eq_some_iff.mp ha
        exact absurd (Repeated.head_original hrest) (by simp [hcopy])
      refine (SameWork.feed r.arrivals (fun _ ↦ Repeated.arrival_lt) hhead hfirst hd h).bind
        fun outs e e' hfeed hrel ↦ ?_
      obtain ⟨hsame, hsteady⟩ := hrel
      obtain ⟨⟨bs, e₁⟩, hbs, hout⟩ := bind_eq_ok.mp hfeed
      obtain ⟨-, rfl⟩ := Prod.mk.inj (Except.ok.inj hout)
      rw [← hpkts] at hbs
      have hbs := (Run.run_comap Prod.fst d r.packets).trans hbs
      exact (ih (hrest bs e₁ hbs) hsteady hsame).bind fun outs' e₂ e₂' _ hend ↦ ⟨rfl, hend⟩

/-- The payloads a list of packets puts out. -/
def output (pkts : List (List UInt8)) : Except Fault (List (Option (List UInt8))) := do
  let (outs, _) ← Run.run deliver {} pkts
  .ok (payloads outs)

theorem output_eq_feed (pkts : List (List UInt8)) : output pkts = (do
    let (outs, _) ← ({} : FECDecoder).feed pkts
    .ok (outs.map fun b ↦ b.1.payload)) := by
  rw [output, feed]
  cases Run.run deliver {} pkts <;> rfl

end FECDecoder

/-- Copies make no difference, if each of them arrives while no sequence is in progress. -/
theorem repeated_output_eq (P : FecParams) (ops : List FECEncoder.Op) (hops : P.Admits ops) :
    ∃ qs, P.Sends ops qs ∧ ∀ rs : List Repeated, rs.map (fun r ↦ r.orig.seq) = qs →
      Run.Along FECDecoder.deliverEither FECDecoder.CopyIdle {} (rs.flatMap Repeated.packets) →
      FECDecoder.output ((rs.flatMap Repeated.packets).map Prod.fst) =
        FECDecoder.output (rs.flatMap fun r ↦ r.orig.packets) := by
  obtain ⟨qs, hsends⟩ := P.exists_sends hops
  refine ⟨qs, hsends, fun rs _ hidle ↦ ?_⟩
  have hagree := FECDecoder.SameWork.feed_all rs hidle .fresh (.refl {})
  rw [FECDecoder.output_eq_feed, FECDecoder.output_eq_feed]
  exact hagree.bind_eq fun outs ↦ .ok (outs.map fun b ↦ b.1.payload)

/-- The copy of the last data packet comes when the sequence is complete. -/
theorem repeated_output_eq_complete : ∃ r : Repeated, r.orig.seq.msgs = [[1, 2, 3], [7]] ∧
    r.arrivals = [(0, false), (1, false), (1, true)] ∧
    FECDecoder.output (r.packets.map Prod.fst) = FECDecoder.output r.orig.packets := by
  obtain ⟨qs, hsends, h⟩ := repeated_output_eq
    { numBlocks := 2, numFecBlocks := 1, maxBlockSize := 10 } [.push [1, 2, 3], .push [7]]
    (by decide)
  have hmsgs : qs.map Sequence.msgs = [[[1, 2, 3], [7]]] := hsends.msgs
  obtain ⟨q, rfl, hq⟩ := List.map_eq_singleton_iff.mp hmsgs
  have hn : q.nPackets = 3 := by
    rw [Sequence.nPackets, Sequence.nBlocks, (hsends.isSequence 0 q rfl).nFecBlocks, hq]
    rfl
  have hseq := (hsends.isSequence 0 q rfl).seqNum
  have hnf := (hsends.isSequence 0 q rfl).nFecBlocks
  let r : Repeated :=
    { orig := ⟨q, [0, 1], by rw [hn]; decide⟩
      arrivals := [(0, false), (1, false), (1, true)]
      originals := rfl
      copies := by decide }
  have hpackets : r.packets =
    [([1, 0, 2, 1, 3, 0, 1, 2, 3], false), ([1, 1, 2, 1, 1, 0, 7, 0, 0], false),
      ([1, 1, 2, 1, 1, 0, 7, 0, 0], true)] := by
    have hp : ∀ k < 2, q.packet k = q.tag k ++ word 5 ([[1, 2, 3], [7]].getD k []) := by
      intro k hk
      have hsize : q.size = 5 := by rw [Sequence.size, hq]; rfl
      rw [Sequence.packet, Sequence.body, if_pos (by rw [Sequence.nBlocks, hq]; exact hk), hsize,
        Sequence.msg, hq]
    simp only [Repeated.packets, r, List.map_cons, List.map_nil, hp 0 (by decide), hp 1 (by decide),
      Sequence.tag, hseq, hnf, Sequence.nBlocks, hq]
    decide
  refine ⟨r, hq, rfl, ?_⟩
  have hout := h [r] rfl (by
    rw [List.flatMap_singleton, hpackets]
    decide +kernel)
  simpa using hout

/-- The copy of the first data packet counts as the second one: the sequence is taken to be
complete, and the second message is not output. -/
theorem copied_data_packet_loses_message :
    FecParams.transmit { numBlocks := 2, numFecBlocks := 1, maxBlockSize := 10 }
        [.push [1, 2, 3], .push [7]] [0, 0, 1] ≠
      FecParams.transmit { numBlocks := 2, numFecBlocks := 1, maxBlockSize := 10 }
        [.push [1, 2, 3], .push [7]] [0, 1] := by
  have hcopied : FecParams.transmit { numBlocks := 2, numFecBlocks := 1, maxBlockSize := 10 }
      [.push [1, 2, 3], .push [7]] [0, 0, 1] = .ok [some [1, 2, 3]] := by
    decide +kernel
  have horiginal : FecParams.transmit { numBlocks := 2, numFecBlocks := 1, maxBlockSize := 10 }
      [.push [1, 2, 3], .push [7]] [0, 1] = .ok [some [1, 2, 3], some [7]] := by
    decide +kernel
  rw [hcopied, horiginal]
  decide

end WfbBridge
