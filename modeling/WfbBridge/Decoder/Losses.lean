import Mathlib
import WfbBridge.Decoder.Counters
import WfbBridge.Decoder.WorkingSet

/-!
# Losses on a link with FEC

`dropped_packets` is at most the number of packets that did not arrive, as long as no packet breaks
a sequence that is in progress in a way that is counted.  At such a break the packet itself is
counted as lost, the packets before it in its sequence are counted a second time, and the packets in
between are estimated from the size of the new sequence.
-/

namespace WfbBridge

open Checked

namespace FECDecoder

variable {d d' : FECDecoder} {q : Sequence} {k : ℕ} {out : List (FECBlock × ℕ)}

/-- The packet breaks a sequence that is in progress, and `bn - pbn` packets are counted. -/
def CountsBreak (d : FECDecoder) (pkt : List UInt8) : Prop :=
  ∃ blk, FECBlock.ofPacket pkt = .ok blk ∧ blk.header.seqNum ≠ d.prevHeader.seqNum ∧
    0 < d.brokenPackets blk.header

/-- What a packet adds to `dropped_packets`. -/
theorem deliver_droppedPackets (hk : k < q.nPackets)
    (hdeliver : d.deliver (q.packet k) = .ok (out, d')) {e : FECDecoder}
    (henter : (d.countPacket (q.block k).pktLength).enterSequence (q.block k).header = some e) :
    d'.stats.droppedPackets =
      ({ e with prevHeader := (q.block k).header }.countSkipped
        (q.block k).header).stats.droppedPackets := by
  obtain ⟨e', hadd, -, rfl⟩ := exists_addPacket hdeliver
  simp only [addPacket, if_neg (not_passThrough hk), henter] at hadd
  split at hadd
  · rw [← Except.ok.inj hadd, addDataBlock_stats]
  · have hsame := addFecBlock_droppedPackets hadd
    exact hsame

/-- The last packet is remembered. -/
theorem deliver_prevHeader (hdeliver : d.deliver (q.packet k) = .ok (out, d')) :
    d'.prevHeader = (q.block k).header := by
  obtain ⟨e, hadd, -, rfl⟩ := exists_addPacket hdeliver
  exact (addPacket_completes hadd).1

/-- The first packet of a sequence. -/
theorem deliver_droppedPackets_first (hprev : d.prevHeader.seqNum < 256)
    (hne : d.prevHeader.seqNum ≠ q.seqNum) (hk : k < q.nPackets)
    (hbreak : ¬d.CountsBreak (q.packet k)) (hdeliver : d.deliver (q.packet k) = .ok (out, d')) :
    d'.stats.droppedPackets = d.stats.droppedPackets + k := by
  obtain ⟨hseq, hblock, -, -⟩ := Sequence.header_block hk
  have hne' : (q.block k).header.seqNum ≠ d.prevHeader.seqNum := by
    rw [hseq]
    exact hne.symm
  obtain ⟨e, henter, hpackets, -, -⟩ := enterSequence_stats_new
    (d := d.countPacket (q.block k).pktLength) hprev hne'
  have hzero : d.brokenPackets (q.block k).header = 0 := by
    by_contra hpos
    exact hbreak ⟨_, Sequence.ofPacket_packet k, hne', Nat.pos_of_ne_zero hpos⟩
  have hbroken : (d.countPacket (q.block k).pktLength).brokenPackets (q.block k).header = 0 := hzero
  rw [deliver_droppedPackets hk hdeliver henter, hpackets, hbroken, hblock]
  rfl

/-- The next packet of a sequence. -/
theorem deliver_droppedPackets_next {i : ℕ} (hprev : d.prevHeader = (q.block i).header)
    (hlt : i < k) (hk : k < q.nPackets) (hdeliver : d.deliver (q.packet k) = .ok (out, d')) :
    d'.stats.droppedPackets ≤ d.stats.droppedPackets + (k - i - 1) := by
  obtain ⟨hseq, hblock, -, -⟩ := Sequence.header_block hk
  obtain ⟨hseq', hblock', -, -⟩ := Sequence.header_block (hlt.trans hk)
  have hsame : (q.block k).header.seqNum =
      (d.countPacket (q.block k).pktLength).prevHeader.seqNum := by
    rw [hseq]
    exact ((congrArg FECHeader.seqNum hprev).trans hseq').symm
  have hlast : (d.countPacket (q.block k).pktLength).prevHeader.block = i :=
    (congrArg FECHeader.block hprev).trans hblock'
  by_cases h0 : d.blockSize = 0
  · have hover := enterSequence_over (d := d.countPacket (q.block k).pktLength) h0 hsame
    obtain ⟨e, hadd, -, rfl⟩ := exists_addPacket hdeliver
    simp only [addPacket, if_neg (not_passThrough hk), hover] at hadd
    rw [← Except.ok.inj hadd]
    exact Nat.le_add_right _ _
  · obtain ⟨e, henter, hpackets, -, -⟩ := enterSequence_stats_same
      (d := d.countPacket (q.block k).pktLength) h0 hsame (by rw [hlast, hblock]; exact hlt)
    rw [deliver_droppedPackets hk hdeliver henter, hpackets, hblock, hlast]
    exact le_rfl

end FECDecoder

/-! ## Runs -/

/-- No packet breaks a sequence in a way that is counted. -/
def NoCountedBreak (rs : List Reception) : Prop :=
  Run.Along FECDecoder.receive (fun d r ↦
    Run.Along FECDecoder.deliver (fun d pkt ↦ ¬d.CountsBreak pkt) d r.packets) {} rs

/-- The packets of a sequence that are lost. -/
def Reception.lost (r : Reception) : ℕ := lostBefore r.got r.seq.nPackets

theorem Reception.lost_add_length (r : Reception) : r.lost + r.got.length = r.seq.nPackets := by
  have hall := lostBefore_add_filter r.sorted_got r.seq.nPackets
  have hlt : r.got.filter (· < r.seq.nPackets) = r.got := List.filter_eq_self.mpr fun k hk ↦
    decide_eq_true (Reception.got_lt hk)
  rwa [hlt] at hall

/-- The packets of a sequence, one after the other. -/
theorem Reception.run_droppedPackets {r : Reception} {d₀ : FECDecoder}
    (hprev : d₀.prevHeader.seqNum < 256) (hne : d₀.prevHeader.seqNum ≠ r.seq.seqNum) {ks : List ℕ}
    {k : ℕ} (hks : ks ++ [k] <+: r.got)
    (hbreak : Run.Along FECDecoder.deliver (fun d pkt ↦ ¬d.CountsBreak pkt) d₀
      ((ks ++ [k]).map r.seq.packet)) {outs : List (List (FECBlock × ℕ))} {d : FECDecoder}
    (hrun : Run.run FECDecoder.deliver d₀ ((ks ++ [k]).map r.seq.packet) = .ok (outs, d)) :
    d.prevHeader = (r.seq.block k).header ∧
      d.stats.droppedPackets + ks.length ≤ d₀.stats.droppedPackets + k := by
  induction ks using List.reverseRecOn generalizing k outs d with
  | nil =>
      have hk : k < r.seq.nPackets := got_lt (hks.subset (by simp))
      obtain ⟨out, d', _, hdeliver, hnil, -⟩ := Run.run_cons_eq_ok.mp hrun
      obtain ⟨-, rfl⟩ := Prod.mk.inj (Except.ok.inj hnil)
      refine ⟨FECDecoder.deliver_prevHeader hdeliver, ?_⟩
      exact (FECDecoder.deliver_droppedPackets_first hprev hne hk hbreak.1 hdeliver).le
  | append_singleton ks i ih =>
      have hpre : ks ++ [i] <+: r.got := (List.prefix_append _ _).trans hks
      have hk : k < r.seq.nPackets := got_lt (hks.subset (by simp))
      have hlt : i < k := by
        have hsorted := r.sorted_got.sublist hks.sublist
        exact (List.pairwise_append.mp hsorted).2.2 i (by simp) k (by simp)
      rw [List.map_append] at hrun hbreak
      obtain ⟨outs₁, d₁, outs₂, hrun₁, hlast, -⟩ := Run.run_append_eq_ok.mp hrun
      obtain ⟨out, d₂, _, hdeliver, hnil, -⟩ := Run.run_cons_eq_ok.mp hlast
      obtain ⟨-, rfl⟩ := Prod.mk.inj (Except.ok.inj hnil)
      obtain ⟨hprev₁, hdropped⟩ := ih hpre (Run.along_append.mp hbreak).1 hrun₁
      have hstep := FECDecoder.deliver_droppedPackets_next hprev₁ hlt hk hdeliver
      refine ⟨FECDecoder.deliver_prevHeader hdeliver, ?_⟩
      rw [List.length_append, List.length_singleton]
      omega

/-- A whole sequence. -/
theorem Reception.receive_droppedPackets {r : Reception} {d d' : FECDecoder}
    (hentry : r.got ≠ [] → d.prevHeader.seqNum < 256 ∧ d.prevHeader.seqNum ≠ r.seq.seqNum)
    (hbreak : Run.Along FECDecoder.deliver (fun d pkt ↦ ¬d.CountsBreak pkt) d r.packets)
    {outs : List (List (FECBlock × ℕ))} (hrun : d.receive r = .ok (outs, d')) :
    d'.stats.droppedPackets ≤ d.stats.droppedPackets + r.lost := by
  rw [FECDecoder.receive, packets] at hrun
  rw [packets] at hbreak
  have hlost := r.lost_add_length
  by_cases hgot : r.got = []
  · rw [hgot] at hrun
    obtain ⟨-, rfl⟩ := Prod.mk.inj (Except.ok.inj hrun)
    exact Nat.le_add_right _ _
  · obtain ⟨hprev, hne⟩ := hentry hgot
    obtain ⟨ks, k, hks⟩ := (List.eq_nil_or_concat' r.got).resolve_left hgot
    have hk : k < r.seq.nPackets := got_lt (by rw [hks]; simp)
    rw [hks] at hrun hbreak
    obtain ⟨-, hdropped⟩ := run_droppedPackets hprev hne (by rw [hks]) hbreak hrun
    rw [hks, List.length_append, List.length_singleton] at hlost
    omega

/-- One sequence after the other. -/
theorem FecParams.Sends.receive_droppedPackets {P : FecParams} {ops : List FECEncoder.Op}
    {qs : List Sequence} (hsends : P.Sends ops qs) {pre post : List Reception}
    (hrs : (pre ++ post).map Reception.seq = qs) (hnear : Near (pre ++ post))
    (hbreak : NoCountedBreak (pre ++ post)) {outs : List (List (List (FECBlock × ℕ)))}
    {d : FECDecoder} (hrun : Run.run FECDecoder.receive {} pre = .ok (outs, d)) :
    ∃ G, d.Follows P pre G ∧ d.stats.droppedPackets ≤ (pre.map Reception.lost).sum := by
  induction pre using List.reverseRecOn generalizing post outs d with
  | nil =>
      obtain ⟨-, rfl⟩ := Prod.mk.inj (Except.ok.inj hrun)
      exact ⟨[], .fresh, le_rfl⟩
  | append_singleton pre r ih =>
      rw [List.append_assoc, List.singleton_append] at hrs hnear hbreak
      obtain ⟨outs₁, d₁, outs₂, hrun₁, hlast, -⟩ := Run.run_append_eq_ok.mp hrun
      obtain ⟨out, d₂, _, hreceive, hnil, -⟩ := Run.run_cons_eq_ok.mp hlast
      obtain ⟨-, rfl⟩ := Prod.mk.inj (Except.ok.inj hnil)
      obtain ⟨G, hfollows, hdropped⟩ := ih hrs hnear hbreak hrun₁
      have hseq := hsends.isSequence_of_append hrs
      obtain ⟨ph, -, hfollows'⟩ := hfollows.of_receive hnear hseq hreceive
      have hle := Reception.receive_droppedPackets
        (fun hr ↦ ⟨hfollows.between.prev_lt, hfollows.prev_ne hnear hr hseq⟩)
        ((Run.along_append.mp hbreak).2 outs₁ d₁ hrun₁).1 hreceive
      refine ⟨_, hfollows', ?_⟩
      rw [List.map_append, List.sum_append, List.map_singleton, List.sum_singleton]
      omega

/-- On a link with FEC losses are not over-counted, if no break of a sequence is counted: after
every packet, `dropped_packets` is at most the number of packets emitted before it that did not
arrive. -/
theorem droppedPackets_le_lost (P : FecParams) (ops : List FECEncoder.Op) (hops : P.Admits ops) :
    ∃ qs, P.Sends ops qs ∧ ∀ rs : List Reception, rs.map Reception.seq = qs → Near rs →
      NoCountedBreak rs → ∀ pre r post, rs = pre ++ r :: post → ∀ ks k, ks ++ [k] <+: r.got →
        ∀ outs₀ d₀ outs d, Run.run FECDecoder.receive {} pre = .ok (outs₀, d₀) →
          Run.run FECDecoder.deliver d₀ ((ks ++ [k]).map r.seq.packet) = .ok (outs, d) →
          d.stats.droppedPackets ≤ (pre.map Reception.lost).sum + lostBefore r.got k := by
  obtain ⟨qs, hsends⟩ := P.exists_sends hops
  refine ⟨qs, hsends, ?_⟩
  rintro _ hrs hnear hbreak pre r post rfl ks k hks outs₀ d₀ outs d hrun₀ hrun
  obtain ⟨G, hfollows, hdropped⟩ := hsends.receive_droppedPackets hrs hnear hbreak hrun₀
  have hr : r.got ≠ [] :=
    List.ne_nil_of_mem (hks.subset (List.mem_append_right ks List.mem_cons_self))
  have hlost := lostBefore_add_length r.sorted_got hks
  obtain ⟨rest, hrest⟩ := hks
  have halong : Run.Along FECDecoder.deliver (fun d pkt ↦ ¬d.CountsBreak pkt) d₀ r.packets :=
    ((Run.along_append.mp hbreak).2 outs₀ d₀ hrun₀).1
  rw [Reception.packets, ← hrest, List.map_append] at halong
  obtain ⟨-, hle⟩ := Reception.run_droppedPackets hfollows.between.prev_lt
    (hfollows.prev_ne hnear hr (hsends.isSequence_of_append hrs)) ⟨rest, hrest⟩
    (Run.along_append.mp halong).1 hrun
  omega

/-- The second of two data packets is lost, and counted. -/
theorem droppedPackets_le_lost_one_loss :
    ∃ r : Reception, r.seq.msgs = [[1, 2, 3], [7]] ∧ r.got = [0, 2] ∧
      ∃ outs d, Run.run FECDecoder.deliver {} [r.seq.packet 0, r.seq.packet 2] = .ok (outs, d) ∧
        d.stats.droppedPackets ≤ 1 := by
  obtain ⟨qs, hsends, h⟩ := droppedPackets_le_lost
    { numBlocks := 2, numFecBlocks := 1, maxBlockSize := 10 } [.push [1, 2, 3], .push [7]]
    (by decide)
  have hmsgs : qs.map Sequence.msgs = [[[1, 2, 3], [7]]] := hsends.msgs
  obtain ⟨q, rfl, hq⟩ := List.map_eq_singleton_iff.mp hmsgs
  have hn : q.nPackets = 3 := by
    rw [Sequence.nPackets, Sequence.nBlocks, (hsends.isSequence 0 q rfl).nFecBlocks, hq]
    rfl
  let r : Reception := ⟨q, [0, 2], by rw [hn]; decide⟩
  have hbreak : NoCountedBreak [r] := by
    refine ⟨⟨?_, fun out d hdeliver ↦ ⟨?_, fun _ _ _ ↦ trivial⟩⟩, fun _ _ _ ↦ trivial⟩
    · rintro ⟨blk, -, -, hpos⟩
      exact absurd hpos (lt_irrefl _)
    · rintro ⟨blk, hblk, hne, -⟩
      obtain rfl := Except.ok.inj ((Sequence.ofPacket_packet 2).symm.trans hblk)
      refine hne ?_
      rw [FECDecoder.deliver_prevHeader hdeliver, (Sequence.header_block (by rw [hn]; decide)).1,
        (Sequence.header_block (by rw [hn]; decide)).1]
  obtain ⟨outs, ph, hphase⟩ := r.run_ok
  have hagree := (FECDecoder.At.entry (q := q) q.seqNum_pos.ne .fresh).run r.got
    fun k hk ↦ Reception.got_lt hk
  rw [hphase] at hagree
  obtain ⟨d, hrun, -⟩ := hagree.of_ok
  exact ⟨r, hq, rfl, outs, d, hrun, h [r] rfl (List.isChain_singleton 0) hbreak [] r [] rfl [0] 2
    List.prefix_rfl [] {} outs d rfl hrun⟩

/-- Of two sequences the first packets arrive.  Two packets are lost in between,
and three are counted. -/
theorem lost_packets_over_counted :
    ∃ d, FecParams.decoderAfter { numBlocks := 2, numFecBlocks := 1, maxBlockSize := 10 }
      [.push [1], .push [2], .push [3], .push [4]] [0, 3] = .ok d ∧
      lostBefore [0, 3] 3 < d.stats.droppedPackets := by
  have hcount : (FecParams.decoderAfter { numBlocks := 2, numFecBlocks := 1, maxBlockSize := 10 }
      [.push [1], .push [2], .push [3], .push [4]] [0, 3]).toOption.any
      (fun d ↦ decide (lostBefore [0, 3] 3 < d.stats.droppedPackets)) = true := by
    decide +kernel
  obtain ⟨d, hd, hcount⟩ := exists_ok_of_any hcount
  exact ⟨d, hd, of_decide_eq_true hcount⟩

end WfbBridge
