import Mathlib
import WfbBridge.Decoder.Counters
import WfbBridge.Encoder.Plain

/-!
# Losses without FEC

Without FEC, `dropped_packets` is the sum of the gaps between the sequence numbers.  The decoder
unrolls a number below the last one by 256, but the encoder leaves out the number 0, so every round
of the numbers is counted as a lost packet.
-/

namespace WfbBridge

open Checked

/-- Fewer than 254 packets in a row are lost before one arrives. -/
def FewLost (keep : List ℕ) : Prop :=
  (∀ k ∈ keep.head?, k < 254) ∧ keep.IsChain fun i j ↦ j < i + 255

/-- After every packet that arrives, `dropped_packets` is the number of packets that were emitted
before it and did not arrive. -/
def LossesExact (emitted : List FECBlock) (keep : List ℕ) : Prop :=
  ∀ pre k, pre ++ [k] <+: keep → ∃ outs d, Run.run FECDecoder.deliver {}
      ((pre ++ [k]).filterMap fun i ↦ emitted[i]?.map FECBlock.packet) = .ok (outs, d) ∧
    d.stats.droppedPackets = lostBefore keep k

theorem FewLost.mono {pre keep : List ℕ} (h : FewLost keep) (hpre : pre <+: keep) :
    FewLost pre := by
  obtain ⟨post, rfl⟩ := hpre
  refine ⟨fun k hk ↦ h.1 k ?_, h.2.left_of_append⟩
  cases pre with
  | nil => cases hk
  | cons i pre => exact hk

/-! ## Runs -/

section Runs

variable {P : PlainParams} {msgs : List (List UInt8)}

/-- The gap between two numbers, with the number 0 that is never sent. -/
theorem u16_unrolledSeq {i k : ℕ} (hlt : i < k) (hnear : k < i + 255) :
    u16 (FECDecoder.unrolledSeq (PlainParams.seqNumAt i) (PlainParams.seqNumAt k) + 65536 -
      PlainParams.seqNumAt i - 1) + i + i / 255 + 1 = k + k / 255 := by
  by_cases h : PlainParams.seqNumAt k < PlainParams.seqNumAt i
  · rw [FECDecoder.unrolledSeq, if_pos h]
    simp only [PlainParams.seqNumAt, u16] at h ⊢
    omega
  · rw [FECDecoder.unrolledSeq, if_neg h]
    simp only [PlainParams.seqNumAt, u16] at h ⊢
    omega

/-- A packet that arrives. -/
theorem deliver_block (hfit : ∀ m ∈ msgs, m.length + 2 ≤ P.maxBlockSize) {k : ℕ}
    (hk : k < msgs.length) (d : FECDecoder) :
    ∃ pkt out d', (msgs.mapIdx P.block)[k]?.map FECBlock.packet = some pkt ∧
      d.deliver pkt = .ok (out, d') ∧ d'.prevHeader.seqNum = PlainParams.seqNumAt k ∧
      d'.stats.droppedPackets = d.stats.droppedPackets +
        u16 (FECDecoder.unrolledSeq d.prevHeader.seqNum (PlainParams.seqNumAt k) + 65536 -
          d.prevHeader.seqNum - 1) := by
  obtain ⟨hseq, hoff⟩ := P.header_block k msgs[k]
  have hpkt : FECBlock.ofPacket (P.block k msgs[k]).packet = .ok (P.block k msgs[k]) :=
    FECEncoder.ofPacket_filledBlock 0 P.maxBlockSize_le (hfit _ (List.getElem_mem hk))
  refine ⟨_, _, _, ?_, FECDecoder.deliver_off hpkt hoff, hseq, ?_⟩
  · rw [List.getElem?_mapIdx, List.getElem?_eq_getElem hk]
    rfl
  · rw [← hseq]
    rfl

/-- After packet `k`, every round of the numbers has been counted as a packet. -/
theorem run_deliver_keep (hfit : ∀ m ∈ msgs, m.length + 2 ≤ P.maxBlockSize) {keep : List ℕ} {k : ℕ}
    (hsub : (keep ++ [k]).Sublist (List.range msgs.length)) (hfew : FewLost (keep ++ [k])) :
    ∃ outs d, Run.run FECDecoder.deliver {}
        ((keep ++ [k]).filterMap fun i ↦ (msgs.mapIdx P.block)[i]?.map FECBlock.packet) =
          .ok (outs, d) ∧ d.prevHeader.seqNum = PlainParams.seqNumAt k ∧
      d.stats.droppedPackets + keep.length = k + k / 255 := by
  have hk : k < msgs.length := List.mem_range.mp (hsub.subset (by simp))
  induction keep using List.reverseRecOn generalizing k with
  | nil =>
      have hfirst : k < 254 := hfew.1 k rfl
      obtain ⟨pkt, out, d, hpkt, hdeliver, hprev, hdropped⟩ := deliver_block hfit hk {}
      refine ⟨[out], d, ?_, hprev, ?_⟩
      · rw [List.nil_append, List.filterMap_cons, hpkt]
        exact Run.run_cons_eq_ok.mpr ⟨out, d, [], hdeliver, rfl, rfl⟩
      · have hzero : FECDecoder.unrolledSeq 0 (PlainParams.seqNumAt k) = PlainParams.seqNumAt k :=
          if_neg (Nat.not_lt_zero _)
        rw [hdropped, hzero]
        simp only [PlainParams.seqNumAt, u16, List.length_nil]
        omega
  | append_singleton keep i ih =>
      have hpre : keep ++ [i] <+: keep ++ [i] ++ [k] := List.prefix_append _ _
      have hsorted := List.pairwise_lt_range.sublist hsub
      have hchain := hfew.2
      have hlt : i < k := (List.pairwise_append.mp hsorted).2.2 i (by simp) k (by simp)
      have hnear : k < i + 255 := by
        rw [List.append_assoc, List.isChain_append] at hchain
        exact (List.isChain_cons_cons.mp hchain.2.1).1
      obtain ⟨outs, d, hrun, hprev, hdropped⟩ := ih (hpre.sublist.trans hsub)
        (hfew.mono hpre) (List.mem_range.mp (hsub.subset (by simp)))
      obtain ⟨pkt, out, d', hpkt, hdeliver, hprev', hdropped'⟩ := deliver_block hfit hk d
      refine ⟨outs ++ [out], d', ?_, hprev', ?_⟩
      · rw [List.filterMap_append, List.filterMap_cons, hpkt]
        exact Run.run_append_eq_ok.mpr ⟨outs, d, [out], hrun,
          Run.run_cons_eq_ok.mpr ⟨out, d', [], hdeliver, rfl, rfl⟩, rfl⟩
      · have hgap := u16_unrolledSeq hlt hnear
        rw [hdropped', hprev, List.length_append, List.length_singleton]
        omega

end Runs

/-- Without FEC the losses are exact up to the first round of the sequence numbers: after every
packet that arrives, if none after the first 255 does. -/
theorem lossesExact_iff (P : PlainParams) (ops : List FECEncoder.Op) (hops : P.Admits ops) :
    ∃ outs e, Run.run FECEncoder.step P.encoder ops = .ok (outs, e) ∧
      ∀ keep : List ℕ, keep.Sublist (List.range (outs.flatten ++ e.outBlocks).length) →
        FewLost keep → (LossesExact (outs.flatten ++ e.outBlocks) keep ↔ ∀ k ∈ keep, k < 255) := by
  obtain ⟨outs, e, hrun, hemitted⟩ := P.run_encoder hops
  refine ⟨outs, e, hrun, ?_⟩
  rw [hemitted, List.length_mapIdx]
  intro keep hsub hfew
  have hsorted : keep.Pairwise (· < ·) := List.pairwise_lt_range.sublist hsub
  have hcounts : ∀ pre k, pre ++ [k] <+: keep → ∃ outs d, Run.run FECDecoder.deliver {}
      ((pre ++ [k]).filterMap fun i ↦ ((messages ops).mapIdx P.block)[i]?.map FECBlock.packet) =
        .ok (outs, d) ∧ d.stats.droppedPackets = lostBefore keep k + k / 255 := by
    intro pre k hpre
    obtain ⟨outs, d, hrun, -, hdropped⟩ := run_deliver_keep hops (hpre.sublist.trans hsub)
      (hfew.mono hpre)
    have hlost := lostBefore_add_length hsorted hpre
    exact ⟨outs, d, hrun, by omega⟩
  constructor
  · intro hexact k hk
    obtain ⟨pre, post, rfl⟩ := List.append_of_mem hk
    have hpre : pre ++ [k] <+: pre ++ k :: post := ⟨post, by simp⟩
    obtain ⟨outs, d, hrun, hdropped⟩ := hcounts pre k hpre
    obtain ⟨outs', d', hrun', hdropped'⟩ := hexact pre k hpre
    obtain ⟨-, rfl⟩ := Prod.mk.inj (Except.ok.inj (hrun.symm.trans hrun'))
    omega
  · intro hlt pre k hpre
    obtain ⟨outs, d, hrun, hdropped⟩ := hcounts pre k hpre
    have hk := hlt k (hpre.subset (by simp))
    exact ⟨outs, d, hrun, by omega⟩

/-- The second of three packets is lost. -/
theorem lossesExact_one_loss :
    ∃ outs e, Run.run FECEncoder.step
        (PlainParams.encoder { numBlocks := 0, numFecBlocks := 0, maxBlockSize := 10 })
        [.push [1], .push [2], .push [3]] = .ok (outs, e) ∧
      LossesExact (outs.flatten ++ e.outBlocks) [0, 2] := by
  have hops : PlainParams.Admits { numBlocks := 0, numFecBlocks := 0, maxBlockSize := 10 }
      [.push [1], .push [2], .push [3]] := by decide
  obtain ⟨outs, e, hrun, h⟩ := lossesExact_iff
    { numBlocks := 0, numFecBlocks := 0, maxBlockSize := 10 } [.push [1], .push [2], .push [3]] hops
  obtain ⟨outs', e', hrun', hemitted⟩ := PlainParams.run_encoder _ hops
  obtain ⟨rfl, rfl⟩ := Prod.mk.inj (Except.ok.inj (hrun.symm.trans hrun'))
  have hlen : (outs.flatten ++ e.outBlocks).length = 3 := by
    rw [hemitted, List.length_mapIdx]
    rfl
  refine ⟨outs, e, hrun, (h [0, 2] ?_ ⟨by decide, by decide⟩).mpr (by decide)⟩
  rw [hlen]
  decide

/-- Nothing is lost, and after 256 packets one is counted. -/
theorem not_lossesExact_round :
    ∃ outs e, Run.run FECEncoder.step
        (PlainParams.encoder { numBlocks := 0, numFecBlocks := 0, maxBlockSize := 10 })
        (List.replicate 256 (.push [])) = .ok (outs, e) ∧
      (outs.flatten ++ e.outBlocks).length = 256 ∧ FewLost (List.range 256) ∧
      ¬LossesExact (outs.flatten ++ e.outBlocks) (List.range 256) := by
  have hmsgs : messages (List.replicate 256 (.push [])) = List.replicate 256 [] :=
    List.filterMap_replicate_of_some rfl
  have hfit : ∀ m ∈ messages (List.replicate 256 (.push [])), m.length + 2 ≤ 10 := by
    intro m hm
    rw [hmsgs] at hm
    rw [List.eq_of_mem_replicate hm]
    decide
  have hlen : (messages (List.replicate 256 (.push []))).length = 256 := by
    rw [hmsgs, List.length_replicate]
  obtain ⟨outs, e, hrun, hemitted⟩ := PlainParams.run_encoder
    { numBlocks := 0, numFecBlocks := 0, maxBlockSize := 10 } hfit
  have hfew : FewLost (List.range 256) := by
    refine ⟨by decide, ?_⟩
    rw [List.isChain_range]
    intro m _
    omega
  have hrange : List.range 256 = List.range 255 ++ [255] := List.range_succ
  refine ⟨outs, e, hrun, by rw [hemitted, List.length_mapIdx, hlen], hfew, fun hexact ↦ ?_⟩
  have hpre : List.range 255 ++ [255] <+: List.range 256 := by rw [hrange]
  obtain ⟨outs', d, hrun', hdropped⟩ := hexact (List.range 255) 255 hpre
  obtain ⟨outs'', d', hrun'', -, hdropped'⟩ := run_deliver_keep
    (P := { numBlocks := 0, numFecBlocks := 0, maxBlockSize := 10 }) hfit
    (by rw [hlen]; exact hpre.sublist) (hrange ▸ hfew)
  have hlost := lostBefore_add_length List.pairwise_lt_range hpre
  rw [hemitted] at hrun'
  obtain ⟨-, rfl⟩ := Prod.mk.inj (Except.ok.inj (hrun'.symm.trans hrun''))
  rw [List.length_range] at hlost hdropped'
  omega

end WfbBridge
