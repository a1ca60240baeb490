import Mathlib
import WfbBridge.Decoder.Counters
import WfbBridge.Decoder.Integrity
import WfbBridge.Decoder.WorkingSet

/-!
# Sequences that are counted

A sequence is meant to be counted once, in `total_blocks` when it has been output and in
`dropped_blocks` when it has not.  A sequence is completed in two places, and lost ones are counted
when the next one breaks a sequence that is in progress.  So the two counters add up as long as
sequences are lost while one is in progress, and not in the step from number 255 to number 1.
-/

namespace WfbBridge

open Checked

/-- The sequence has been completed. -/
def Phase.done : Phase → ℕ
  | .skipping [] => 1
  | _ => 0

namespace FECDecoder

/-- Every message that `decode` has to rebuild fits into `m_block_size`. -/
structure Covers (d : FECDecoder) (q : Sequence) : Prop where
  blocks_ne : d.blocks ≠ []
  fits : ∀ i < q.nBlocks, (∀ b ∈ d.blocks, b.header.block ≠ i) → (q.msg i).length + 2 ≤ d.blockSize

/-- The first packet of a sequence arrives while one with a lower number is in progress, or after
the sequence just before it has been completed. -/
def EntersCounted (d : FECDecoder) (pre : List Reception) (r : Reception) : Prop :=
  if d.blockSize = 0 then d.fecBlocks = [] ∧ ∀ r', pre.getLast? = some r' → r'.got ≠ []
  else d.prevHeader.seqNum < r.seq.seqNum

/-- `decode` counts no block as dropped. -/
def DropsNothing (d : FECDecoder) : Prop :=
  ∀ d', d.decode = .ok d' → d'.stats.droppedBlocks = d.stats.droppedBlocks

variable {d d' : FECDecoder} {q : Sequence} {k : ℕ} {out : List (FECBlock × ℕ)} {ph ph' : Phase}
  {I : List ℕ} {G : List FECBlock}

/-! ## One packet -/

/-- A packet that is handled, up to the counters of `e` after it has been entered. -/
theorem At.deliver_entered (hat : d.At q (.collecting I G)) (hk : k < q.nPackets)
    (hdrop : d.WhenDecoding DropsNothing (q.packet k))
    (hstep : Phase.step q (.collecting I G) k = .ok (out, ph'))
    (hdeliver : d.deliver (q.packet k) = .ok (out, d')) :
    ∃ e, (d.countPacket (q.block k).pktLength).enterSequence (q.block k).header = some e ∧
      d'.stats.droppedBlocks =
        ({ e with prevHeader := (q.block k).header }.countSkipped
          (q.block k).header).stats.droppedBlocks ∧
      d'.stats.totalBlocks =
        ({ e with prevHeader := (q.block k).header }.countSkipped
          (q.block k).header).stats.totalBlocks + ph'.done := by
  obtain ⟨hseq, hblock, hn, -⟩ := Sequence.header_block hk
  obtain ⟨e, henter, hholds⟩ := hat.enterSequence hseq (q.block k).pktLength
  refine ⟨e, henter, ?_⟩
  have hholds' := (hholds.setPrevHeader (q.block k).header).countSkipped (q.block k).header
  obtain ⟨d₁, hadd, -, rfl⟩ := exists_addPacket hdeliver
  simp only [FECDecoder.addPacket, if_neg (not_passThrough hk), henter,
    Sequence.isDataBlock_block hk] at hadd
  generalize he : { e with prevHeader := (q.block k).header }.countSkipped (q.block k).header = e₁
    at hadd hholds' ⊢
  have hlen : e₁.blocks.length = I.length := by rw [hholds'.blocks, List.length_map]
  rw [Phase.step] at hstep
  by_cases hdata : k < q.nBlocks
  · rw [if_pos hdata] at hadd hstep
    obtain ⟨-, rfl⟩ := Prod.mk.inj (Except.ok.inj hstep)
    rw [← Except.ok.inj hadd]
    change (e₁.addDataBlock (q.block k)).stats.droppedBlocks = _ ∧
      (e₁.addDataBlock (q.block k)).stats.totalBlocks = _
    rw [addDataBlock_stats, hlen, hn]
    refine ⟨rfl, ?_⟩
    split <;> rfl
  · rw [if_neg hdata] at hadd hstep
    have hfec : e₁.fecBlocks.length = G.length := by rw [hholds'.fecBlocks]
    obtain ⟨hdropped, htotal⟩ := addFecBlock_blocks hadd (by
      intro hfull e₂ he₂
      refine hdrop (q.block k) { e₁ with fecBlocks := e₁.fecBlocks ++ [q.block k] }
        (Sequence.ofPacket_packet k) ?_ e₂ he₂
      simp only [FECDecoder.decoding, if_neg (not_passThrough hk), henter, he,
        Sequence.isDataBlock_block hk, List.length_append, List.length_singleton]
      rw [if_pos ⟨hdata, hfull⟩])
    refine ⟨hdropped, htotal.trans ?_⟩
    rw [hlen, hfec, hn]
    congr 1
    by_cases hfull : I.length + (G.length + 1) = q.nBlocks
    · rw [if_pos hfull] at hstep ⊢
      obtain ⟨out', -, hstep⟩ := bind_eq_ok.mp hstep
      obtain ⟨-, rfl⟩ := Prod.mk.inj (Except.ok.inj hstep)
      rfl
    · rw [if_neg hfull] at hstep ⊢
      split at hstep
      · obtain ⟨-, rfl⟩ := Prod.mk.inj (Except.ok.inj hstep)
        cases G <;> rfl
      · obtain ⟨-, rfl⟩ := Prod.mk.inj (Except.ok.inj hstep)
        rfl

/-- The first packet of a sequence. -/
theorem At.deliver_first (hprev : d.prevHeader.seqNum ≠ q.seqNum) (hd : d.Between G)
    (hk : k < q.nPackets) (hdrop : d.WhenDecoding DropsNothing (q.packet k))
    (hstep : Phase.step q (.collecting [] G) k = .ok (out, ph'))
    (hdeliver : d.deliver (q.packet k) = .ok (out, d')) :
    d'.stats.droppedBlocks = d.stats.droppedBlocks + d.brokenBlocks q.seqNum ∧
      d'.stats.totalBlocks = d.stats.totalBlocks + ph'.done := by
  obtain ⟨e, henter, hdropped, htotal⟩ :=
    (At.entry hprev hd).deliver_entered hk hdrop hstep hdeliver
  obtain ⟨e', henter', -, hdropped', htotal'⟩ := enterSequence_stats_new
    (d := d.countPacket (q.block k).pktLength) hd.prev_lt (h := (q.block k).header)
    (by rw [(Sequence.header_block hk).1]; exact hprev.symm)
  obtain rfl := Option.some.inj (henter.symm.trans henter')
  rw [(Sequence.header_block hk).1] at hdropped'
  exact ⟨hdropped.trans hdropped', by rw [htotal, htotal']; rfl⟩

/-- The next packet of a sequence. -/
theorem At.deliver_next (hat : d.At q ph) (hph : ph.Entered) (hk : k < q.nPackets)
    (hdrop : d.WhenDecoding DropsNothing (q.packet k)) (hstep : ph.step q k = .ok (out, ph'))
    (hdeliver : d.deliver (q.packet k) = .ok (out, d')) :
    d'.stats.droppedBlocks = d.stats.droppedBlocks ∧
      d'.stats.totalBlocks + ph.done = d.stats.totalBlocks + ph'.done := by
  have hseq := (Sequence.header_block hk).1
  cases hat with
  | entry _ _ => exact absurd rfl hph
  | @collecting I G hI hprev hholds =>
      have h0 : d.blockSize ≠ 0 := by
        have := q.two_le_heldSize hI
        rw [hholds.blockSize]
        omega
      obtain ⟨e, henter, hdropped, htotal⟩ :=
        (At.collecting hI hprev hholds).deliver_entered hk hdrop hstep hdeliver
      obtain ⟨hdropped', htotal'⟩ := enterSequence_blocks_same
        (d := d.countPacket (q.block k).pktLength) h0 (hseq.trans hprev.symm) henter
      exact ⟨hdropped.trans hdropped', by rw [htotal, htotal']; rfl⟩
  | @skipping G hprev hholds =>
      obtain ⟨-, rfl⟩ := Prod.mk.inj (Except.ok.inj hstep)
      have hover := (At.skipping hprev hholds).enterSequence_skipping hseq (q.block k).pktLength
      obtain ⟨d₁, hadd, -, rfl⟩ := exists_addPacket hdeliver
      simp only [FECDecoder.addPacket, if_neg (not_passThrough hk), hover] at hadd
      rw [← Except.ok.inj hadd]
      exact ⟨rfl, rfl⟩

end FECDecoder

/-! ## One sequence -/

namespace Reception

variable {r : Reception} {d d' : FECDecoder} {G : List FECBlock}

/-- `decode` with every missing message fitting counts no block as dropped. -/
theorem dropsNothing {R : List ℕ} (hR : R <+: r.fec) (hd : d.Holds r.seq r.data (R.map r.seq.block))
    (hcount : r.data.length + (R.map r.seq.block).length = r.seq.nBlocks)
    (hlt : r.data.length < r.seq.nBlocks) (hcovers : d.Covers r.seq) : d.DropsNothing := by
  intro d' hdec
  have hne : r.data ≠ [] := by
    intro hnil
    refine hcovers.blocks_ne ?_
    rw [hd.blocks, hnil, List.map_nil]
  have henough := enough hne hlt hcount
  obtain ⟨out, first, hout, hfirst, hpay⟩ := payloads_rebuild (fecPackets hR.sublist) henough
    fun i hi hiI ↦ by
      rw [← hd.blockSize]
      exact hcovers.fits i hi (header_ne hd hiI)
  have hlen : out.length = r.seq.nBlocks - first := by
    have := congrArg List.length hpay
    rwa [payloads, List.flatten_singleton, List.length_map, List.length_map, List.length_range']
      at this
  obtain ⟨i, I, hI⟩ := List.exists_cons_of_ne_nil hne
  have hbl : d.blocks = r.seq.block i :: I.map r.seq.block := by rw [hd.blocks, hI, List.map_cons]
  have hi : i < r.seq.nBlocks := data_lt (by rw [hI]; exact List.mem_cons_self)
  have hn := (Sequence.header_block (Nat.lt_add_right r.seq.nFecBlocks hi)).2.2.1
  have herased : (FECDecoder.erasedIdxs (d.slots (r.seq.block i).header.nBlocks)).head? =
      some first := by
    rw [hn, Sequence.slots_eq hd.blocks henough.lt, Sequence.erasedIdxs_slots]
    exact hfirst
  refine FECDecoder.decode_droppedBlocks hbl herased (hd.released.trans hout) ?_ hdec
  rw [hn, hlen]
  omega

/-- So nothing is counted as dropped by any call of `decode`. -/
theorem along_dropsNothing (hat : d.At r.seq (.collecting [] []))
    (hcovers : Run.Along FECDecoder.deliver
      (FECDecoder.WhenDecoding fun d ↦ d.Covers r.seq) d r.packets) :
    Run.Along FECDecoder.deliver (FECDecoder.WhenDecoding FECDecoder.DropsNothing) d r.packets := by
  have hdrops : Run.Along FECDecoder.deliver
      (FECDecoder.WhenDecoding fun d ↦ d.Covers r.seq → d.DropsNothing) d r.packets :=
    along_whenDecoding hat fun R d' hR hholds hcount hlt ↦ dropsNothing hR hholds hcount hlt
  exact hdrops.combine hcovers fun _ _ h hC blk d' hblk hdec ↦
    h blk d' hblk hdec (hC blk d' hblk hdec)

/-- The counters after some packets of a sequence. -/
theorem run_blocks (hprev : d.prevHeader.seqNum ≠ r.seq.seqNum) (hd : d.Between G) {ks : List ℕ}
    (hne : ks ≠ []) (hks : ∀ k ∈ ks, k < r.seq.nPackets)
    (hdrop : Run.Along FECDecoder.deliver (FECDecoder.WhenDecoding FECDecoder.DropsNothing) d
      (ks.map r.seq.packet)) {outs : List (List (FECBlock × ℕ))} {ph : Phase}
    (hphase : Run.run (Phase.step r.seq) (.collecting [] G) ks = .ok (outs, ph))
    (hrun : Run.run FECDecoder.deliver d (ks.map r.seq.packet) = .ok (outs, d')) :
    d'.stats.droppedBlocks = d.stats.droppedBlocks + d.brokenBlocks r.seq.seqNum ∧
      d'.stats.totalBlocks = d.stats.totalBlocks + ph.done := by
  induction ks using List.reverseRecOn generalizing outs ph d' with
  | nil => exact absurd rfl hne
  | append_singleton ks k ih =>
      have hk : k < r.seq.nPackets := hks k (by simp)
      have hks' : ∀ k ∈ ks, k < r.seq.nPackets := fun k hk ↦ hks k (List.mem_append_left _ hk)
      rw [List.map_append] at hrun hdrop
      obtain ⟨hdrop₁, hdrop₂⟩ := Run.along_append.mp hdrop
      obtain ⟨outs₁, ph₁, _, hphase₁, hlast, rfl⟩ := Run.run_append_eq_ok.mp hphase
      obtain ⟨out, ph₂, _, hstep, hnil, rfl⟩ := Run.run_cons_eq_ok.mp hlast
      obtain ⟨rfl, rfl⟩ := Prod.mk.inj (Except.ok.inj hnil)
      have hagree := (FECDecoder.At.entry hprev hd).run ks hks'
      rw [hphase₁] at hagree
      obtain ⟨d₁, hrun₁, hat₁⟩ := hagree.of_ok
      obtain ⟨outs₁', d₁', outs₂, hrun₁', hlast', heq⟩ := Run.run_append_eq_ok.mp hrun
      obtain ⟨rfl, rfl⟩ := Prod.mk.inj (Except.ok.inj (hrun₁.symm.trans hrun₁'))
      obtain rfl := List.append_cancel_left heq
      obtain ⟨out', d₂, _, hdeliver, hnil, hout⟩ := Run.run_cons_eq_ok.mp hlast'
      obtain ⟨rfl, rfl⟩ := Prod.mk.inj (Except.ok.inj hnil)
      obtain ⟨rfl, -⟩ := List.cons.inj hout
      have hdropk := (hdrop₂ outs₁ d₁ hrun₁).1
      by_cases hnil : ks = []
      · subst hnil
        obtain ⟨-, rfl⟩ := Prod.mk.inj (Except.ok.inj hrun₁)
        obtain ⟨-, rfl⟩ := Prod.mk.inj (Except.ok.inj hphase₁)
        exact FECDecoder.At.deliver_first hprev hd hk hdropk hstep hdeliver
      · obtain ⟨hdropped, htotal⟩ := ih hnil hks' hdrop₁ hphase₁ hrun₁
        obtain ⟨hdropped', htotal'⟩ := hat₁.deliver_next (Phase.entered_run hphase₁ hnil) hk hdropk
          hstep hdeliver
        exact ⟨hdropped'.trans hdropped, by omega⟩

/-- Not all messages are output if a data packet is missing and `decode` does not run. -/
theorem payloads_dataOut_ne (hlt : r.data.length < r.seq.nBlocks) (m : ℕ) :
    payloads (Phase.dataOut r.seq r.data ++ List.replicate m []) ≠ r.seq.msgs.map some := by
  intro heq
  have hgap : r.gap < r.seq.nBlocks := by
    refine lt_of_le_of_ne r.gap_spec.1 fun hfull ↦ hlt.ne ?_
    have hlen := Sequence.length_erased r.sorted_data fun _ h ↦ data_lt h
    have hnil : r.seq.erased r.data = [] := by
      rw [← List.head?_eq_none_iff]
      by_contra hsome
      obtain ⟨first, hfirst⟩ := Option.ne_none_iff_exists'.mp hsome
      have := (Sequence.head_erased hfirst).1
      rw [gap_eq hfirst] at hfull
      omega
    rw [hnil, List.length_nil] at hlen
    omega
  have := congrArg List.length heq
  rw [payloads_append, payloads_replicate_nil, List.append_nil, payloads_dataOut_eq,
    List.length_map, List.length_map, List.length_range] at this
  exact hgap.ne this

/-- A sequence that is entered with nothing left over is completed if and only
if all its messages are output. -/
theorem run_counted (hat : d.At r.seq (.collecting [] [])) (hgot : r.got ≠ [])
    (hcovers : Run.Along FECDecoder.deliver
      (FECDecoder.WhenDecoding fun d ↦ d.Covers r.seq) d r.packets) :
    ∃ outs ph, Run.run (Phase.step r.seq) (.collecting [] []) r.got = .ok (outs, ph) ∧
      ph.done = if payloads outs = r.seq.msgs.map some then 1 else 0 := by
  rcases r.run_cases [] with ⟨hfull, hrun⟩ | ⟨hne, hlt, R, k, R₂, hfec, hcount, hdec⟩ |
    ⟨hne, hlt, -, hrun⟩ | ⟨hnil, -⟩
  · refine ⟨_, _, hrun, ?_⟩
    rw [if_pos (payloads_full hfull)]
    rfl
  · obtain ⟨d', hholds, hd'⟩ := decode_of_along hat hne hfec hcount hcovers
    rw [List.nil_append] at hcount hdec
    obtain ⟨out, hout, hpay⟩ := run_decoded hne hlt hfec hcount fun i hi hiI ↦ by
      rw [← hholds.blockSize]
      exact hd'.fits i hi (header_ne hholds hiI)
    rw [hout, ok_bind] at hdec
    refine ⟨_, _, hdec, ?_⟩
    rw [if_pos hpay]
    rfl
  · refine ⟨_, _, hrun, ?_⟩
    rw [if_neg (payloads_dataOut_ne hlt _)]
    rfl
  · -- the first FEC packet does not complete a sequence of which there is no data
    have heq := r.got_eq
    rw [hnil, List.nil_append] at heq
    obtain ⟨k, R, hfec⟩ := List.exists_cons_of_ne_nil (heq ▸ hgot)
    have hk : k ∈ r.fec := by rw [hfec]; exact List.mem_cons_self
    have hrun := Phase.run_fec_only (G := []) (R := R) (fec_ge hk)
    rw [← hfec, ← heq] at hrun
    have hmany : ¬([] : List FECBlock).length + 1 = r.seq.nBlocks := by
      intro hone
      obtain ⟨d₁, hholds, -, -, hdecoding⟩ := hat.addPacket (fec_lt hk)
      rw [if_pos ⟨Nat.not_lt.mpr (fec_ge hk), by simpa using hone⟩] at hdecoding
      rw [packets, heq, hfec] at hcovers
      exact (hcovers.1 _ _ (Sequence.ofPacket_packet k) hdecoding).blocks_ne hholds.blocks
    rw [if_neg hmany] at hrun
    refine ⟨_, _, hrun, ?_⟩
    rw [if_neg]
    · rfl
    · rw [payloads_replicate_nil]
      intro hmsgs
      exact r.seq.msgs_ne (List.map_eq_nil_iff.mp hmsgs.symm)

end Reception

/-! ## All sequences -/

/-- The sequences up to the last one of which a packet arrived. -/
def settled (pre : List Reception) : ℕ := (heard pre).getLast?.elim 0 (· + 1)

/-- The sequences all of whose messages were output. -/
def completed (pre : List Reception) (outs : List (List (List (FECBlock × ℕ)))) : ℕ :=
  (pre.zip outs).countP fun p ↦ payloads p.2 = p.1.seq.msgs.map some

/-- Every sequence is entered in a way that the counters can follow. -/
def CountedEntries (rs : List Reception) : Prop :=
  ∀ pre r post, rs = pre ++ r :: post → r.got ≠ [] → ∀ outs d,
    Run.run FECDecoder.receive {} pre = .ok (outs, d) → d.EntersCounted pre r

theorem settled_concat (pre : List Reception) (r : Reception) :
    settled (pre ++ [r]) = if r.got = [] then settled pre else pre.length + 1 := by
  rw [settled, heard_concat]
  split
  · rw [List.append_nil, settled]
  · rw [List.getLast?_concat]
    rfl

theorem completed_concat {pre : List Reception} {outs : List (List (List (FECBlock × ℕ)))}
    (hlen : outs.length = pre.length) (r : Reception) (out : List (List (FECBlock × ℕ))) :
    completed (pre ++ [r]) (outs ++ [out]) = completed pre outs +
      if payloads out = r.seq.msgs.map some then 1 else 0 := by
  rw [completed, List.zip_append hlen.symm, List.countP_append, completed]
  congr 1
  simp only [List.zip_cons_cons, List.zip_nil_right, List.countP_cons, List.countP_nil,
    decide_eq_true_eq, Nat.zero_add]

/-- The counters between two sequences. -/
structure FECDecoder.Counted (P : FecParams) (pre : List Reception)
    (outs : List (List (List (FECBlock × ℕ)))) (d : FECDecoder) : Prop where
  follows : ∃ G, d.Follows P pre G
  length : outs.length = pre.length
  balance : d.NothingLeft → d.stats.totalBlocks + d.stats.droppedBlocks +
    (if d.blockSize = 0 then 0 else 1) = settled pre
  total : d.stats.totalBlocks = completed pre outs

namespace FECDecoder.Counted

variable {P : FecParams} {pre post : List Reception} {r : Reception}
  {outs : List (List (List (FECBlock × ℕ)))} {d : FECDecoder}

theorem fresh : Counted P [] [] {} := ⟨⟨[], .fresh⟩, rfl, fun _ ↦ rfl, rfl⟩

/-- The counters when a sequence is entered. -/
theorem enter (h : d.Counted P pre outs) (hnear : Near (pre ++ r :: post)) (hr : r.got ≠ [])
    (hseq : P.IsSequence pre.length r.seq) (henter : d.EntersCounted pre r) :
    d.NothingLeft ∧ d.stats.totalBlocks + d.stats.droppedBlocks + d.brokenBlocks r.seq.seqNum =
      pre.length := by
  obtain ⟨G, hfollows⟩ := h.follows
  rw [EntersCounted] at henter
  by_cases h0 : d.blockSize = 0
  · rw [if_pos h0] at henter
    obtain ⟨hfec, hlast⟩ := henter
    have hnothing : d.NothingLeft := fun _ ↦ hfec
    have hbalance := h.balance hnothing
    have hsettled : settled pre = pre.length := by
      cases pre using List.reverseRecOn with
      | nil => rfl
      | append_singleton pre r' =>
          rw [settled_concat, if_neg (hlast r' List.getLast?_concat), List.length_append,
            List.length_singleton]
    rw [if_pos h0, hsettled] at hbalance
    exact ⟨hnothing, by rw [brokenBlocks, if_pos h0]; exact hbalance⟩
  · rw [if_neg h0] at henter
    have hnothing : d.NothingLeft := fun hzero ↦ absurd hzero h0
    have hbalance := h.balance hnothing
    rw [if_neg h0, settled] at hbalance
    refine ⟨hnothing, ?_⟩
    cases hheard : (heard pre).getLast? with
    | none =>
        rw [hheard] at hbalance
        exact absurd hbalance (Nat.succ_ne_zero _)
    | some i =>
        obtain ⟨hi, hlt⟩ := hnear.last_lt hr hheard
        have hprev : d.prevHeader.seqNum = P.seqNumAt i := by
          rw [hfollows.prev, FecParams.lastSeqNum, hheard]
          rfl
        rw [hheard] at hbalance
        change _ + 1 = i + 1 at hbalance
        rw [brokenBlocks, if_neg h0, unrolledSeq, if_neg henter.not_gt]
        rw [hprev, hseq.seqNum] at henter ⊢
        simp only [FecParams.seqNumAt] at henter ⊢
        omega

/-- One more sequence. -/
theorem receive (h : d.Counted P pre outs) (hnear : Near (pre ++ r :: post))
    (hseq : P.IsSequence pre.length r.seq) (henter : r.got ≠ [] → d.EntersCounted pre r)
    (hcovers : Run.Along FECDecoder.deliver
      (FECDecoder.WhenDecoding fun d ↦ d.Covers r.seq) d r.packets) :
    ∃ out d', d.receive r = .ok (out, d') ∧ d'.Counted P (pre ++ [r]) (outs ++ [out]) := by
  have hlen : (outs ++ [([] : List (List (FECBlock × ℕ)))]).length = (pre ++ [r]).length := by
    rw [List.length_append, List.length_append, h.length]
    rfl
  obtain ⟨G, hfollows⟩ := h.follows
  by_cases hr : r.got = []
  · have hrun : d.receive r = .ok ([], d) := by
      rw [FECDecoder.receive, Reception.packets, hr]
      rfl
    obtain ⟨ph, -, hfollows'⟩ := hfollows.of_receive hnear hseq hrun
    refine ⟨[], d, hrun, ⟨_, hfollows'⟩, hlen, ?_, ?_⟩
    · rw [settled_concat, if_pos hr]
      exact h.balance
    · rw [completed_concat h.length, if_neg, h.total, Nat.add_zero]
      intro hmsgs
      exact r.seq.msgs_ne (List.map_eq_nil_iff.mp hmsgs.symm)
  · obtain ⟨hnothing, hbalance⟩ := h.enter hnear hr hseq (henter hr)
    obtain rfl := hfollows.between.eq_nil hnothing
    have hprev := hfollows.prev_ne hnear hr hseq
    have hat : d.At r.seq (.collecting [] []) := .entry hprev hfollows.between
    obtain ⟨out, ph, hphase, hdone⟩ := Reception.run_counted hat hr hcovers
    have hagree := hat.run r.got fun k hk ↦ Reception.got_lt hk
    rw [hphase] at hagree
    obtain ⟨d', hrun, hat'⟩ := hagree.of_ok
    obtain ⟨hdropped, htotal⟩ := Reception.run_blocks hprev hfollows.between hr
      (fun k hk ↦ Reception.got_lt hk) (Reception.along_dropsNothing hat hcovers) hphase hrun
    obtain ⟨ph', -, hfollows'⟩ := hfollows.of_receive hnear hseq hrun
    refine ⟨out, d', hrun, ⟨_, hfollows'⟩, ?_, fun hnothing' ↦ ?_, ?_⟩
    · rw [List.length_append, List.length_append, h.length]
      rfl
    · rw [settled_concat, if_neg hr]
      cases hat' with
      | entry _ _ => exact absurd rfl (Phase.entered_run hphase hr)
      | collecting hI _ hholds =>
          have h0 : d'.blockSize ≠ 0 := by
            have := r.seq.two_le_heldSize hI
            rw [hholds.blockSize]
            omega
          rw [if_neg h0]
          change _ = _ + 0 at htotal
          omega
      | @skipping G _ hholds =>
          have h0 : d'.blockSize = 0 := hholds.blockSize
          obtain rfl : G = [] := hholds.fecBlocks.symm.trans (hnothing' h0)
          rw [if_pos h0]
          change _ = _ + 1 at htotal
          omega
    · rw [completed_concat h.length, htotal, hdone, h.total]

end FECDecoder.Counted

/-- One sequence after the other. -/
theorem exists_counted {P : FecParams} {ops : List FECEncoder.Op} {qs : List Sequence}
    (hsends : P.Sends ops qs) {pre post : List Reception}
    (hrs : (pre ++ post).map Reception.seq = qs) (hnear : Near (pre ++ post))
    (henter : CountedEntries (pre ++ post))
    (hcovers : EveryDecode (fun q d ↦ d.Covers q) (pre ++ post)) :
    ∃ outs d, Run.run FECDecoder.receive {} pre = .ok (outs, d) ∧ d.Counted P pre outs := by
  induction pre using List.reverseRecOn generalizing post with
  | nil => exact ⟨[], {}, rfl, .fresh⟩
  | append_singleton pre r ih =>
      rw [List.append_assoc, List.singleton_append] at hrs hnear henter hcovers
      obtain ⟨outs, d, hrun, hcounted⟩ := ih hrs hnear henter hcovers
      obtain ⟨out, d', hreceive, hcounted'⟩ := hcounted.receive hnear
        (hsends.isSequence_of_append hrs) (fun hr ↦ henter pre r post rfl hr outs d hrun)
        ((Run.along_append.mp hcovers).2 outs d hrun).1
      exact ⟨outs ++ [out], d', Run.run_append_eq_ok.mpr ⟨outs, d, [out], hrun,
        Run.run_cons_eq_ok.mpr ⟨out, d', [], hreceive, rfl, rfl⟩, rfl⟩, hcounted'⟩

/-- Every sequence is counted once, if every sequence is entered in a way that the counters can
follow and every message that `decode` has to rebuild fits: when the first packet of a sequence has
been handled and does not complete it, the two counters add up to the number of sequences before it,
and `total_blocks` is the number of those that were output. -/
theorem sequences_counted_once (P : FecParams) (ops : List FECEncoder.Op) (hops : P.Admits ops) :
    ∃ qs, P.Sends ops qs ∧ ∀ rs : List Reception, rs.map Reception.seq = qs → Near rs →
      CountedEntries rs → EveryDecode (fun q d ↦ d.Covers q) rs →
      ∀ pre r post, rs = pre ++ r :: post → ∀ k ks, r.got = k :: ks →
        ∃ outs₀ d₀ out d, Run.run FECDecoder.receive {} pre = .ok (outs₀, d₀) ∧
          d₀.deliver (r.seq.packet k) = .ok (out, d) ∧
          (d.stats.totalBlocks = d₀.stats.totalBlocks →
            d.stats.totalBlocks + d.stats.droppedBlocks = pre.length ∧
            d.stats.totalBlocks = completed pre outs₀) := by
  obtain ⟨qs, hsends⟩ := P.exists_sends hops
  refine ⟨qs, hsends, ?_⟩
  rintro _ hrs hnear henter hcovers pre r post rfl k ks hks
  obtain ⟨outs, d, hrun, hcounted⟩ := exists_counted hsends hrs hnear henter hcovers
  have hr : r.got ≠ [] := by simp [hks]
  have hseq := hsends.isSequence_of_append hrs
  obtain ⟨hnothing, hbalance⟩ := hcounted.enter hnear hr hseq (henter pre r post rfl hr outs d hrun)
  obtain ⟨G, hfollows⟩ := hcounted.follows
  obtain rfl := hfollows.between.eq_nil hnothing
  have hprev := hfollows.prev_ne hnear hr hseq
  have hat : d.At r.seq (.collecting [] []) := .entry hprev hfollows.between
  have halong := ((Run.along_append.mp hcovers).2 outs d hrun).1
  obtain ⟨out, ph, hphase, -⟩ := Reception.run_counted hat hr halong
  have hdrop := Reception.along_dropsNothing hat halong
  rw [Reception.packets, hks] at hdrop
  rw [hks] at hphase
  obtain ⟨out₁, ph₁, _, hstep, -, -⟩ := Run.run_cons_eq_ok.mp hphase
  have hk : k < r.seq.nPackets := Reception.got_lt (by rw [hks]; exact List.mem_cons_self)
  have hagree := hat.deliver hk
  rw [hstep] at hagree
  obtain ⟨d', hdeliver, -⟩ := hagree.of_ok
  obtain ⟨hdropped, htotal⟩ :=
    FECDecoder.At.deliver_first hprev hfollows.between hk hdrop.1 hstep hdeliver
  refine ⟨outs, d, out₁, d', hrun, hdeliver, fun hsame ↦ ⟨?_, ?_⟩⟩
  · omega
  · rw [hsame, hcounted.total]

/-- Data packets do not make `decode` run. -/
theorem Reception.along_data {C : FECDecoder → Prop} {q : Sequence} {ks : List ℕ}
    (hks : ∀ k ∈ ks, k < q.nBlocks) (d : FECDecoder) :
    Run.Along FECDecoder.deliver (FECDecoder.WhenDecoding C) d (ks.map q.packet) := by
  induction ks generalizing d with
  | nil => trivial
  | cons k ks ih =>
      have hk : k < q.nBlocks := hks k List.mem_cons_self
      refine ⟨fun blk d' hblk hdec ↦ ?_,
        fun _ d' _ ↦ ih (fun i hi ↦ hks i (List.mem_cons_of_mem _ hi)) d'⟩
      obtain rfl := Except.ok.inj ((Sequence.ofPacket_packet k).symm.trans hblk)
      have hdata := (Sequence.isDataBlock_block (Nat.lt_add_right q.nFecBlocks hk)).mpr hk
      simp only [FECDecoder.decoding, hdata, not_true_eq_false, false_and, if_false] at hdec
      split at hdec
      · cases hdec
      split at hdec
      · cases hdec
      · cases hdec

/-- Of two sequences of two messages the first one arrives,
and the first packet of the second one. -/
theorem sequences_counted_once_two : ∃ r₀ r₁ : Reception, r₀.got = [0, 1] ∧ r₁.got = [0] ∧
    ∃ outs₀ d₀ out d, Run.run FECDecoder.receive {} [r₀] = .ok (outs₀, d₀) ∧
      d₀.deliver (r₁.seq.packet 0) = .ok (out, d) ∧
      (d.stats.totalBlocks = d₀.stats.totalBlocks →
        d.stats.totalBlocks + d.stats.droppedBlocks = 1 ∧
        d.stats.totalBlocks = completed [r₀] outs₀) := by
  obtain ⟨qs, hsends, h⟩ := sequences_counted_once
    { numBlocks := 2, numFecBlocks := 1, maxBlockSize := 10 }
    [.push [1], .push [2], .push [3], .push [4]] (by decide)
  have hmsgs : qs.map Sequence.msgs = [[[1], [2]], [[3], [4]]] := hsends.msgs
  obtain ⟨q₀, _, rfl, hq₀, hrest⟩ := List.map_eq_cons_iff.mp hmsgs
  obtain ⟨q₁, rfl, hq₁⟩ := List.map_eq_singleton_iff.mp hrest
  have hn₀ : q₀.nBlocks = 2 := by rw [Sequence.nBlocks, hq₀]; rfl
  have hn₁ : q₁.nBlocks = 2 := by rw [Sequence.nBlocks, hq₁]; rfl
  have hp₀ : q₀.nPackets = 3 := by
    rw [Sequence.nPackets, hn₀, (hsends.isSequence 0 q₀ rfl).nFecBlocks]
    rfl
  have hp₁ : q₁.nPackets = 3 := by
    rw [Sequence.nPackets, hn₁, (hsends.isSequence 1 q₁ rfl).nFecBlocks]
    rfl
  let r₀ : Reception := ⟨q₀, [0, 1], by rw [hp₀]; decide⟩
  let r₁ : Reception := ⟨q₁, [0], by rw [hp₁]; decide⟩
  have hnear : Near [r₀, r₁] := by
    change List.IsChain (fun i j ↦ j < i + 255) [0, 1]
    decide
  have hphase : Run.run (Phase.step q₀) (.collecting [] []) [0, 1] =
      .ok (Phase.dataOut q₀ [0, 1], .skipping []) := by
    have hrun := Phase.run_data (q := q₀) (I := [0, 1]) (G := []) (by rw [hn₀]; decide)
      (by rw [hn₀]; decide)
    rwa [Phase.afterData, if_pos (by rw [hn₀]; rfl)] at hrun
  have henter : CountedEntries [r₀, r₁] := by
    intro pre r post heq hr outs d hrun
    rcases pre with _ | ⟨r', _ | ⟨r'', pre⟩⟩
    case nil =>
        obtain ⟨-, rfl⟩ := Prod.mk.inj (Except.ok.inj hrun)
        exact ⟨rfl, fun r' hr' ↦ by cases hr'⟩
    case cons.nil =>
        obtain ⟨rfl, htail⟩ := List.cons.inj heq
        obtain ⟨rfl, rfl⟩ := List.cons.inj htail
        obtain ⟨out, d', _, hreceive, hnil, -⟩ := Run.run_cons_eq_ok.mp hrun
        obtain ⟨-, rfl⟩ := Prod.mk.inj (Except.ok.inj hnil)
        obtain ⟨d'', hreceive', hfollows⟩ := FECDecoder.Follows.fresh.receive hnear
          (hsends.isSequence 0 q₀ rfl) hphase
        obtain ⟨-, rfl⟩ := Prod.mk.inj (Except.ok.inj (hreceive.symm.trans hreceive'))
        have hfec := hfollows.between.fecBlocks
        rw [FECDecoder.EntersCounted]
        split
        case isTrue h0 =>
            rw [if_pos h0] at hfec
            refine ⟨hfec, fun r' hr' ↦ ?_⟩
            obtain rfl := Option.some.inj hr'
            exact List.cons_ne_nil _ _
        case isFalse =>
            rw [hfollows.prev, (hsends.isSequence 1 q₁ rfl).seqNum]
            change 1 < 2
            decide
    case cons.cons =>
        have := congrArg List.length heq
        simp at this
  have hdata₀ : ∀ k ∈ [0, 1], k < q₀.nBlocks := by
    rw [hn₀]
    decide
  have hdata₁ : ∀ k ∈ [0], k < q₁.nBlocks := by
    rw [hn₁]
    decide
  have hcovers : EveryDecode (fun q d ↦ d.Covers q) [r₀, r₁] :=
    ⟨Reception.along_data hdata₀ _, fun _ d _ ↦
      ⟨Reception.along_data hdata₁ _, fun _ _ _ ↦ trivial⟩⟩
  exact ⟨r₀, r₁, rfl, rfl, h [r₀, r₁] rfl hnear henter hcovers [r₀] r₁ [] rfl 0 [] rfl⟩

/-- The first of two sequences is lost as a whole, and not counted. -/
theorem lost_sequence_not_counted :
    ∃ d, FecParams.decoderAfter { numBlocks := 2, numFecBlocks := 1, maxBlockSize := 10 }
      [.push [1], .push [2], .push [3], .push [4]] [3] = .ok d ∧
      d.stats.totalBlocks = 0 ∧ d.stats.totalBlocks + d.stats.droppedBlocks ≠ 1 := by
  have hcount : (FecParams.decoderAfter { numBlocks := 2, numFecBlocks := 1, maxBlockSize := 10 }
      [.push [1], .push [2], .push [3], .push [4]] [3]).toOption.any (fun d ↦
        decide (d.stats.totalBlocks = 0 ∧ d.stats.totalBlocks + d.stats.droppedBlocks ≠ 1)) =
          true := by
    decide +kernel
  obtain ⟨d, hd, hcount⟩ := exists_ok_of_any hcount
  exact ⟨d, hd, of_decide_eq_true hcount⟩

end WfbBridge
