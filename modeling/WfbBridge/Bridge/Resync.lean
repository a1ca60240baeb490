import Mathlib
import WfbBridge.Bridge.Channel
import WfbBridge.Decoder.Safety
import WfbBridge.Decoder.WorkingSet

/-!
# Joining late

A device can be switched on, or a port be opened, in the middle of a transmission, after packets
of another peer, or after packets that no encoder has made.  Whatever the decoder got through
before, one sequence that arrives with all its data packets puts it right: that sequence and the
ones after it are output as if they had been the first.

The number of the sequence has to be new, since the decoder knows a sequence by the number of the
last packet; and no data packet may have had the length 65534, whose `block_size()` is 0.
-/

namespace WfbBridge

open Checked

/-- If the packet is a data packet, its `block_size()` is not 0. -/
def FECBlock.Sized (pkt : List UInt8) : Prop :=
  ∀ blk, FECBlock.ofPacket pkt = .ok blk → blk.isDataBlock → blk.blockSize ≠ 0

instance (pkt : List UInt8) : Decidable (FECBlock.Sized pkt) :=
  match h : FECBlock.ofPacket pkt with
  | .error _ => isTrue fun blk hblk _ ↦ by rw [h] at hblk; cases hblk
  | .ok blk =>
      decidable_of_iff (blk.isDataBlock → blk.blockSize ≠ 0)
        ⟨fun hb blk' hblk hdata ↦ by rw [h] at hblk; cases hblk; exact hb hdata, fun hb ↦ hb blk h⟩

theorem FECBlock.seqNum_ofPacket {pkt : List UInt8} {blk : FECBlock}
    (h : FECBlock.ofPacket pkt = .ok blk) : blk.header.seqNum = (pkt.getD 0 0).toNat := by
  rw [FECBlock.ofPacket] at h
  split at h
  case isTrue hle =>
    obtain rfl := Except.ok.inj h
    have hpos : 0 < u16 pkt.length := lt_of_lt_of_le (by decide) hle
    change (List.getD (pkt.take (u16 pkt.length)) 0 0).toNat = _
    rw [List.getD_eq_getElem?_getD, List.getElem?_take_of_lt hpos, ← List.getD_eq_getElem?_getD]
  case isFalse => exact absurd h (by simp)

namespace FECDecoder

variable {d d' : FECDecoder} {G : List FECBlock} {pkt : List UInt8} {out : List (FECBlock × ℕ)}

/-- A decoder that holds data blocks is collecting. -/
theorem EntersAs.blocks_eq_nil {d₀ : FECDecoder} (h : d.EntersAs d₀)
    (hd : d.blockSize = 0 → d.blocks = []) : d₀.blockSize = 0 → d₀.blocks = [] := by
  rcases h.workingSet with ⟨hsize, hblocks, -⟩ | ⟨-, hblocks, -⟩
  · rwa [hsize, hblocks]
  · exact fun _ ↦ hblocks

/-- Any packet that is got through, of any sequence or none. -/
theorem Between.deliver (hd : d.Between G) (hpkt : FECBlock.Sized pkt)
    (h : d.deliver pkt = .ok (out, d')) :
    (∃ G', d'.Between G') ∧ d'.prevHeader.seqNum = (pkt.getD 0 0).toNat := by
  rw [FECDecoder.deliver, addBlock] at h
  obtain ⟨e, hadd, h⟩ := bind_eq_ok.mp h
  obtain ⟨blk, hblk, hadd⟩ := bind_eq_ok.mp hadd
  obtain ⟨-, rfl⟩ := Prod.mk.inj (Except.ok.inj h)
  have hprev : e.prevHeader.seqNum = (pkt.getD 0 0).toNat := by
    rw [(addPacket_completes hadd).1, FECBlock.seqNum_ofPacket hblk]
  refine ⟨⟨_, hprev.trans_lt (UInt8.toNat_lt _), ?_, rfl, rfl⟩, hprev⟩
  change e.blockSize = 0 → e.blocks = []
  rw [addPacket] at hadd
  by_cases hoff : blk.header.nBlocks = 0 ∨ blk.header.nFecBlocks = 0
  · simp only [if_pos hoff] at hadd
    obtain rfl := Except.ok.inj hadd
    exact hd.blocks
  simp only [if_neg hoff] at hadd
  cases henter : (d.countPacket blk.pktLength).enterSequence blk.header with
  | none =>
      simp only [henter] at hadd
      obtain rfl := Except.ok.inj hadd
      exact hd.blocks
  | some d₀ =>
      simp only [henter] at hadd
      have hd₀ := (entersAs_enterSequence _ henter).blocks_eq_nil hd.blocks
      by_cases hdata : blk.isDataBlock
      · rw [if_pos hdata, addDataBlock_eq] at hadd
        obtain rfl := Except.ok.inj hadd
        dsimp only
        split
        · exact fun _ ↦ rfl
        · intro h0
          have hle := le_max_right
            ({ d₀ with prevHeader := blk.header }.countSkipped blk.header).blockSize blk.blockSize
          exact absurd (Nat.le_zero.mp (hle.trans h0.le)) (hpkt blk hblk hdata)
      · rw [if_neg hdata, addFecBlock] at hadd
        dsimp only at hadd
        split at hadd
        · obtain ⟨d₁, -, hout⟩ := bind_eq_ok.mp hadd
          obtain rfl := Except.ok.inj hout
          exact fun _ ↦ rfl
        · obtain rfl := Except.ok.inj hadd
          exact hd₀

/-- Any packets that are got through: the decoder could be between two sequences. -/
theorem exists_between {pkts : List (List UInt8)} {outs : List (List (FECBlock × ℕ))}
    (hpkts : ∀ pkt ∈ pkts, FECBlock.Sized pkt)
    (h : Run.run FECDecoder.deliver {} pkts = .ok (outs, d)) :
    (∃ G, d.Between G) ∧
      d.prevHeader.seqNum = (pkts.getLast?.map fun pkt ↦ (pkt.getD 0 0).toNat).getD 0 := by
  refine Run.inv_of_run (P := fun pre d ↦ (∃ G, d.Between G) ∧
    d.prevHeader.seqNum = (pre.getLast?.map fun pkt ↦ (pkt.getD 0 0).toNat).getD 0)
    ⟨⟨[], .fresh⟩, rfl⟩ ?_ h
  rintro pre pkt d out d' ⟨post, rfl⟩ ⟨⟨G, hd⟩, -⟩ hdeliver
  obtain ⟨hd', hprev⟩ := hd.deliver (hpkts pkt (by simp)) hdeliver
  exact ⟨hd', by rw [List.getLast?_concat]; exact hprev⟩

/-- A sequence that arrives with all its data packets is output, whatever is left over. -/
theorem Between.receive_all (hd : d.Between G) {r : Reception}
    (hprev : d.prevHeader.seqNum ≠ r.seq.seqNum) (hall : ∀ i < r.seq.nBlocks, i ∈ r.got) :
    ∃ outs d', d.receive r = .ok (outs, d') ∧ payloads outs = r.seq.msgs.map some ∧ d'.Between [] ∧
      d'.prevHeader.seqNum = r.seq.seqNum := by
  have hmem : (List.range r.seq.nBlocks).Subset r.data := fun i hi ↦
    List.mem_filter.mpr ⟨hall i (List.mem_range.mp hi), decide_eq_true (List.mem_range.mp hi)⟩
  have hlen := (List.nodup_range.subperm hmem).length_le
  rw [List.length_range] at hlen
  have hfull : r.data.length = r.seq.nBlocks := le_antisymm r.length_data_le hlen
  rcases r.run_cases G with ⟨-, hrun⟩ | ⟨-, hlt, -⟩ | ⟨-, hlt, -⟩ | ⟨hnil, -⟩
  · have hagree := (At.entry hprev hd).run r.got fun k hk ↦ Reception.got_lt hk
    rw [hrun] at hagree
    obtain ⟨d', hd', hat⟩ := hagree.of_ok
    exact ⟨_, d', hd', Reception.payloads_full hfull, hat.between, hat.prev_eq trivial⟩
  · omega
  · omega
  · have := r.seq.nBlocks_pos
    rw [hnil, List.length_nil] at hlen
    omega

end FECDecoder

/-- A decoder that joins late: after any packets it got through, one sequence with all its data
packets and a new number puts it right.  That sequence is output, and so is every later one of which
enough packets arrive, under the losses of which `decode` recovers them. -/
theorem decoder_resynchronizes (P : FecParams) (ops : List FECEncoder.Op) (hops : P.Admits ops) :
    ∃ qs, P.Sends ops qs ∧ ∀ (before : List Sequence) (r : Reception) (rs : List Reception),
      before ++ (r :: rs).map Reception.seq = qs → (∀ i < r.seq.nBlocks, i ∈ r.got) →
      (∀ r ∈ rs, r.KeepsLongest) →
      ∀ (pkts : List (List UInt8)) (outs : List (List (FECBlock × ℕ))) (d : FECDecoder),
        Run.run FECDecoder.deliver {} pkts = .ok (outs, d) → (∀ pkt ∈ pkts, FECBlock.Sized pkt) →
        (∀ pkt ∈ pkts.getLast?, (pkt.getD 0 0).toNat ≠ r.seq.seqNum) →
        ∃ outs' d', Run.run FECDecoder.receive d (r :: rs) = .ok (outs', d') ∧
          List.Forall₂ (fun r out ↦ r.seq.nBlocks ≤ r.got.length →
            payloads out = r.seq.msgs.map some) (r :: rs) outs' := by
  obtain ⟨qs, hsends⟩ := P.exists_sends hops
  refine ⟨qs, hsends, ?_⟩
  rintro before r rs hqs hall hlong pkts outs d hrun hsized hnew
  obtain ⟨⟨G, hd⟩, hprev⟩ := FECDecoder.exists_between hsized hrun
  have hne : d.prevHeader.seqNum ≠ r.seq.seqNum := by
    rw [hprev]
    cases hlast : pkts.getLast? with
    | none => exact r.seq.seqNum_pos.ne
    | some pkt => exact hnew pkt hlast
  obtain ⟨out, d₁, hreceive, hout, hbetween, hprev₁⟩ := hd.receive_all hne hall
  -- as if the sequences before had arrived
  have hpre : (before.map Sequence.whole ++ r :: rs).map Reception.seq = qs := by
    rw [← hqs, List.map_append, List.map_map]
    exact congrArg (· ++ _) (List.map_id before)
  have hplace : ∀ (j : ℕ) (r' : Reception), (r :: rs)[j]? = some r' →
      P.IsSequence ((before.map Sequence.whole).length + j) r'.seq := by
    intro j r' hj
    refine hsends.isSequence _ _ ?_
    rw [← hpre, List.getElem?_map, List.getElem?_append_right (Nat.le_add_right _ _),
      Nat.add_sub_cancel_left, hj, Option.map_some]
  have hgot : r.got ≠ [] := List.ne_nil_of_mem (hall 0 r.seq.nBlocks_pos)
  have hfollows : d₁.Follows P (before.map Sequence.whole ++ [r]) [] := by
    refine ⟨hbetween, ?_⟩
    rw [FecParams.lastSeqNum, heard_concat, if_neg hgot, List.getLast?_concat, hprev₁]
    exact (hplace 0 r rfl).seqNum
  obtain ⟨outs', d', hrun', hall'⟩ := hfollows.run_longest rs (by
      intro j r' hj
      have := hplace (j + 1) r' hj
      rwa [List.length_append, List.length_singleton, Nat.add_assoc, Nat.add_comm 1 j]) (by
      intro r' hr'
      rcases List.mem_append.mp hr' with hr' | hr'
      · rcases List.mem_append.mp hr' with hr' | hr'
        · obtain ⟨q, -, rfl⟩ := List.mem_map.mp hr'
          exact q.keepsLongest_whole
        · rw [List.mem_singleton.mp hr']
          exact (Reception.all_data hall).1
      · exact hlong r' hr')
  exact ⟨out :: outs', d', Run.run_cons_eq_ok.mpr ⟨out, d₁, outs', hreceive, hrun', rfl⟩,
    .cons (fun _ ↦ hout) hall'⟩

/-- The decoder has heard an FEC packet only, and packets of another peer.  The second sequence
arrives with its data packets, and of the third one data packet is lost. -/
theorem decoder_resynchronizes_late :
    ∃ outs d, Run.run FECDecoder.deliver {} [[7, 0, 5, 1, 1, 0, 9], [1, 2, 2, 1, 8, 8, 8]] =
        .ok (outs, d) ∧
      ∃ r₁ r₂ : Reception, r₁.seq.msgs = [[3], [4, 4]] ∧ r₁.got = [0, 1] ∧
        r₂.seq.msgs = [[5, 5], [6]] ∧ r₂.got = [0, 2] ∧
        ∃ out₁ out₂ d', Run.run FECDecoder.receive d [r₁, r₂] = .ok ([out₁, out₂], d') ∧
          payloads out₁ = [some [3], some [4, 4]] ∧ payloads out₂ = [some [5, 5], some [6]] := by
  obtain ⟨qs, hsends, h⟩ := decoder_resynchronizes
    { numBlocks := 2, numFecBlocks := 1, maxBlockSize := 10 }
    [.push [1], .push [2], .push [3], .push [4, 4], .push [5, 5], .push [6]] (by decide)
  have hmsgs : qs.map Sequence.msgs = [[[1], [2]], [[3], [4, 4]], [[5, 5], [6]]] := hsends.msgs
  obtain ⟨q₀, qs₁, rfl, hq₀, hmsgs⟩ := List.map_eq_cons_iff.mp hmsgs
  obtain ⟨q₁, qs₂, rfl, hq₁, hmsgs⟩ := List.map_eq_cons_iff.mp hmsgs
  obtain ⟨q₂, rfl, hq₂⟩ := List.map_eq_singleton_iff.mp hmsgs
  have hn : ∀ (j : ℕ) (q : Sequence), [q₀, q₁, q₂][j]? = some q → q.msgs.length = 2 →
      q.nPackets = 3 := by
    intro j q hj hlen
    rw [Sequence.nPackets, Sequence.nBlocks, hlen, (hsends.isSequence j q hj).nFecBlocks]
    rfl
  let r₁ : Reception := ⟨q₁, [0, 1], by rw [hn 1 q₁ rfl (by rw [hq₁]; rfl)]; decide⟩
  let r₂ : Reception := ⟨q₂, [0, 2], by rw [hn 2 q₂ rfl (by rw [hq₂]; rfl)]; decide⟩
  have hlong : r₂.KeepsLongest := ⟨0, by simp [r₂, Reception.data, Sequence.nBlocks, hq₂], by
    simp [r₂, Sequence.msg, hq₂, longest]⟩
  have hseq : q₁.seqNum = 2 := (hsends.isSequence 1 q₁ rfl).seqNum
  obtain ⟨outs, d, hrun⟩ : ∃ outs d, Run.run FECDecoder.deliver {}
      [[7, 0, 5, 1, 1, 0, 9], [1, 2, 2, 1, 8, 8, 8]] = .ok (outs, d) := ⟨_, _, rfl⟩
  obtain ⟨outs', d', hrun', hall⟩ := h [q₀] r₁ [r₂] rfl (by simp [r₁, Sequence.nBlocks, hq₁]; omega)
    (by simpa using hlong) _ outs d hrun (by decide) (by
      intro pkt hpkt
      obtain rfl := Option.some.inj hpkt
      rw [hseq]
      decide)
  obtain ⟨out₁, outs₁, hout₁, htail, rfl⟩ := List.forall₂_cons_left_iff.mp hall
  obtain ⟨out₂, outs₂, hout₂, hnil, rfl⟩ := List.forall₂_cons_left_iff.mp htail
  obtain rfl := List.forall₂_nil_left_iff.mp hnil
  refine ⟨outs, d, hrun, r₁, r₂, hq₁, rfl, hq₂, rfl, out₁, out₂, d', hrun', ?_, ?_⟩
  · rw [hout₁ (by simp [r₁, Sequence.nBlocks, hq₁])]
    simp [r₁, hq₁]
  · rw [hout₂ (by simp [r₂, Sequence.nBlocks, hq₂])]
    simp [r₂, hq₂]

end WfbBridge
