import Mathlib
import WfbBridge.Decoder.Recovery

/-!
# Integrity of the decoded stream

What the decoder outputs is a subsequence of what was sent, under any loss, as long
as every call of `decode` gets FEC blocks of its own sequence only, and no missing
message is one or two bytes too long for `m_block_size`.  A block whose message is
longer than that is dropped for its length; these two lengths pass the check, but
the block ends before the message does.

FEC blocks of another sequence are those left over by a sequence of which only FEC
packets arrived.  `Leftover` is what is known about them.
-/

namespace WfbBridge

open Checked

/-- What `decode` needs for its output to be right.  Without a data block it returns at once. -/
structure FECDecoder.Trusted (d : FECDecoder) (q : Sequence) : Prop where
  /-- no FEC block is left over from another sequence -/
  own : d.blocks ≠ [] → ∀ b ∈ d.fecBlocks, b.header.seqNum = q.seqNum
  /-- a missing message fits into a block, or is too long for one by more than two bytes -/
  fits : d.blocks ≠ [] → ∀ i < q.nBlocks, (∀ b ∈ d.blocks, b.header.block ≠ i) →
    (q.msg i).length + 2 ≤ d.blockSize ∨ d.blockSize < (q.msg i).length

/-- FEC blocks left over when a packet of the next sequence arrives: they are FEC blocks
of earlier sequences, and the last one is of the sequence just before. -/
structure Leftover (seqNum : ℕ) (G : List FECBlock) : Prop where
  fec : ∀ b ∈ G, ∃ (q : Sequence) (k : ℕ), q.nBlocks ≤ k ∧ k < q.nPackets ∧ b = q.block k
  last : ∀ b, G.getLast? = some b → b.header.seqNum = seqNum

theorem Leftover.nil (seqNum : ℕ) : Leftover seqNum [] := ⟨by simp, by simp⟩

theorem Leftover.concat {seqNum k : ℕ} {G : List FECBlock} {q : Sequence} (h : Leftover seqNum G)
    (hge : q.nBlocks ≤ k) (hlt : k < q.nPackets) : Leftover q.seqNum (G ++ [q.block k]) where
  fec := by
    intro b hb
    rcases List.mem_append.mp hb with hb | hb
    · exact h.fec b hb
    · exact ⟨q, k, hge, hlt, List.mem_singleton.mp hb⟩
  last := by
    intro b hb
    rw [List.getLast?_concat] at hb
    rw [← Option.some.inj hb]
    exact (Sequence.header_block hlt).1

/-- If all of them carry the number of a new sequence, there are none. -/
theorem Leftover.eq_nil {seqNum seqNum' : ℕ} {G : List FECBlock} (h : Leftover seqNum G)
    (hne : seqNum ≠ seqNum') (hown : ∀ b ∈ G, b.header.seqNum = seqNum') : G = [] := by
  by_contra hG
  have hlast := List.getLast?_eq_some_getLast hG
  exact hne ((h.last _ hlast).symm.trans (hown _ (List.mem_of_getLast? hlast)))

namespace Reception

variable {r : Reception} {G : List FECBlock} {d : FECDecoder}

/-- What is left over after a sequence. -/
theorem leftover {seqNum : ℕ} (hG : Leftover seqNum G) (hne : r.got ≠ [])
    {outs : List (List (FECBlock × ℕ))} {ph : Phase}
    (hrun : Run.run (Phase.step r.seq) (.collecting [] G) r.got = .ok (outs, ph)) :
    Leftover r.seq.seqNum ph.leftover := by
  rcases r.run_cases G with ⟨-, hrun'⟩ | ⟨-, -, R, k, R₂, -, -, hdec⟩ | ⟨hdata, -, -, hrun'⟩ |
    ⟨-, ph', hrun', hleft⟩
  · obtain ⟨-, rfl⟩ := Prod.mk.inj (Except.ok.inj (hrun.symm.trans hrun'))
    exact .nil _
  · rw [hdec] at hrun
    obtain ⟨_, -, hok⟩ := bind_eq_ok.mp hrun
    obtain ⟨-, rfl⟩ := Prod.mk.inj (Except.ok.inj hok)
    exact .nil _
  · obtain ⟨-, rfl⟩ := Prod.mk.inj (Except.ok.inj (hrun.symm.trans hrun'))
    obtain ⟨i, I, hI⟩ := List.exists_cons_of_ne_nil hdata
    rw [hI]
    exact .nil _
  · obtain ⟨-, rfl⟩ := Prod.mk.inj (Except.ok.inj (hrun.symm.trans hrun'))
    rcases hleft with ⟨hnil, -⟩ | hleft | ⟨k, hk, hleft⟩
    · exact absurd hnil hne
    · rw [hleft]
      exact .nil _
    · rw [hleft]
      exact hG.concat (fec_ge hk) (fec_lt hk)

/-- A condition on the calls of `decode`, at the call for this sequence. -/
theorem decode_of_along {C : FECDecoder → Prop} {R R₂ : List ℕ} {k : ℕ}
    (hat : d.At r.seq (.collecting [] G)) (hne : r.data ≠ []) (hfec : r.fec = R ++ [k] ++ R₂)
    (hcount : r.data.length + (G ++ (R ++ [k]).map r.seq.block).length = r.seq.nBlocks)
    (h : Run.Along FECDecoder.deliver (FECDecoder.WhenDecoding C) d r.packets) :
    ∃ d', d'.Holds r.seq r.data (G ++ (R ++ [k]).map r.seq.block) ∧ C d' := by
  have hk : k ∈ r.fec := by rw [hfec]; simp
  have hR : ∀ k ∈ R, k ∈ r.fec := fun k hk ↦ by rw [hfec]; simp [hk]
  have hgot : r.got = (r.data ++ R) ++ k :: R₂ := by
    rw [r.got_eq, hfec]
    simp
  simp only [List.length_append, List.length_map, List.length_singleton] at hcount
  -- the blocks before packet `k` are collected
  have hdata := Phase.run_data (G := G) (fun i hi ↦ data_lt hi) r.length_data_le
  rw [Phase.afterData, if_neg (by omega)] at hdata
  have hcollect := Phase.run_fec_collect (G := G) hne (fun k hk ↦ fec_ge (hR k hk))
    (.inl (by omega : r.data.length + G.length + R.length < r.seq.nBlocks))
  have hagree := hat.run (r.data ++ R) fun i hi ↦ got_lt (by
    rw [hgot]
    exact List.mem_append_left _ hi)
  rw [Run.run_append_eq_ok.mpr ⟨_, _, _, hdata, hcollect, rfl⟩] at hagree
  obtain ⟨d₁, hd₁, hat₁⟩ := hagree.of_ok
  rw [packets, hgot, List.map_append, Run.along_append] at h
  obtain ⟨d₂, hholds, -, -, hdecoding⟩ := hat₁.addPacket (fec_lt hk)
  rw [if_pos ⟨Nat.not_lt.mpr (fec_ge hk), by
    simp only [List.length_append, List.length_map]
    omega⟩] at hdecoding
  refine ⟨{ d₂ with fecBlocks := d₂.fecBlocks ++ [r.seq.block k] },
    ⟨hholds.blockSize, hholds.blocks, ?_, hholds.outBlocks⟩,
      (h.2 _ d₁ hd₁).1 _ _ (Sequence.ofPacket_packet k) hdecoding⟩
  simp [hholds.fecBlocks]

end Reception

/-- The decoder after the sequences `pre`, with some FEC blocks left over. -/
def FECDecoder.Tracks (P : FecParams) (pre : List Reception) (d : FECDecoder) : Prop :=
  ∃ G, d.Follows P pre G ∧ Leftover d.prevHeader.seqNum G

theorem FECDecoder.Tracks.fresh {P : FecParams} : FECDecoder.Tracks P [] {} :=
  ⟨[], .fresh, .nil _⟩

/-- From one sequence to the next. -/
theorem FECDecoder.Follows.tracks {P : FecParams} {pre post : List Reception} {r : Reception}
    {d : FECDecoder} {G : List FECBlock} (h : d.Follows P pre G)
    (hG : Leftover d.prevHeader.seqNum G) (hnear : Near (pre ++ r :: post))
    (hseq : P.IsSequence pre.length r.seq) {outs : List (List (FECBlock × ℕ))} {ph : Phase}
    (hrun : Run.run (Phase.step r.seq) (.collecting [] G) r.got = .ok (outs, ph)) :
    ∃ d', d.receive r = .ok (outs, d') ∧ d'.Tracks P (pre ++ [r]) := by
  obtain ⟨d', hd', hfollows⟩ := h.receive hnear hseq hrun
  refine ⟨d', hd', _, hfollows, ?_⟩
  by_cases hr : r.got = []
  · rw [FECDecoder.receive, Reception.packets, hr] at hd'
    rw [hr] at hrun
    obtain ⟨-, rfl⟩ := Prod.mk.inj (Except.ok.inj hd')
    obtain ⟨-, rfl⟩ := Prod.mk.inj (Except.ok.inj hrun)
    exact hG
  · have hprev : d'.prevHeader.seqNum = r.seq.seqNum := by
      rw [hfollows.prev, hseq.seqNum, FecParams.lastSeqNum, heard_concat, if_neg hr,
        List.getLast?_concat]
      rfl
    rw [hprev]
    exact Reception.leftover hG hr hrun

/-! ## One sequence -/

namespace Reception

variable {r : Reception} {G : List FECBlock}

variable (r) in
/-- The number of data packets before the first gap. -/
def gap : ℕ := (r.seq.erased r.data).head?.getD r.seq.nBlocks

theorem gap_eq {first : ℕ} (h : (r.seq.erased r.data).head? = some first) : r.gap = first := by
  rw [gap, h, Option.getD_some]

theorem gap_spec : r.gap ≤ r.seq.nBlocks ∧ r.gap ∉ r.data ∧ ∀ i < r.gap, i ∈ r.data := by
  cases hfirst : (r.seq.erased r.data).head? with
  | some first =>
      rw [gap_eq hfirst]
      obtain ⟨hlt, hnot, hall⟩ := Sequence.head_erased hfirst
      exact ⟨hlt.le, hnot, hall⟩
  | none =>
      have hgap : r.gap = r.seq.nBlocks := by rw [gap, hfirst, Option.getD_none]
      rw [hgap]
      refine ⟨le_rfl, fun hmem ↦ absurd (data_lt hmem) (lt_irrefl _), fun i hi ↦ ?_⟩
      by_contra hnot
      have hmem := Sequence.mem_erased.mpr ⟨hi, hnot⟩
      rw [List.head?_eq_none_iff.mp hfirst] at hmem
      exact List.not_mem_nil hmem

theorem payloads_dataOut_eq : payloads (Phase.dataOut r.seq r.data) =
    (List.range r.gap).map fun i ↦ some (r.seq.msg i) := by
  obtain ⟨hle, hnot, hall⟩ := r.gap_spec
  exact payloads_dataOut hle hall hnot

/-- The messages before the gap and some of those after it. -/
theorem sublist_msgs {l : List (Option (List UInt8))}
    (hl : l.Sublist ((List.range' r.gap (r.seq.nBlocks - r.gap)).map fun i ↦ some (r.seq.msg i))) :
    (((List.range r.gap).map fun i ↦ some (r.seq.msg i)) ++ l).Sublist (r.seq.msgs.map some) := by
  rw [← Sequence.map_some_msgs r.gap_spec.1]
  exact (List.Sublist.refl _).append hl

theorem payloads_dataOut_sublist :
    (payloads (Phase.dataOut r.seq r.data)).Sublist (r.seq.msgs.map some) := by
  rw [payloads_dataOut_eq, ← List.append_nil (List.map _ _)]
  exact sublist_msgs (List.nil_sublist _)

/-- `decode` with FEC blocks of the sequence releases messages after the gap, if the
lengths of the missing ones are not those that pass for too short a block. -/
theorem payloads_rebuild_sublist {R : List ℕ} (hR : r.seq.FecPackets R)
    (henough : r.seq.Enough r.data (R.map r.seq.block))
    (hfits : ∀ i < r.seq.nBlocks, i ∉ r.data → (r.seq.msg i).length + 2 ≤ r.seq.heldSize r.data ∨
      r.seq.heldSize r.data < (r.seq.msg i).length) :
    ∃ out, r.seq.rebuild r.data (R.map r.seq.block) = .ok out ∧ (payloads [out]).Sublist
      ((List.range' r.gap (r.seq.nBlocks - r.gap)).map fun i ↦ some (r.seq.msg i)) := by
  obtain ⟨-, rb, i₀, first, -, hfirst, hout, hrb, hdata⟩ := henough.rebuild_recovers hR
  refine ⟨_, hout, ?_⟩
  have hpayload : ∀ i < r.seq.nBlocks, (rb i).length ≤ r.seq.heldSize r.data →
      (rb i).payload = some (r.seq.msg i) := by
    intro i hi hlen
    by_cases hiI : i ∈ r.data
    · rw [hrb i hiI]
      exact Sequence.payload_block hi
    · have hi' := hdata i (Sequence.mem_erased.mpr ⟨hi, hiI⟩)
      rw [Sequence.length_rebuilt hi' (Sequence.two_le_heldSize henough.ne) hi] at hlen
      refine Sequence.payload_rebuilt hi' (r.seq.heldSize_le r.data) hi ?_
      have := hfits i hi hiI
      omega
  rw [Sequence.releaseFrom, payloads, List.flatten_singleton, List.map_map, ← gap_eq hfirst]
  rw [List.map_congr_left (g := fun i ↦ some (r.seq.msg i))]
  · exact List.filter_sublist.map _
  · intro i hi
    obtain ⟨hi, hlen⟩ := List.mem_filter.mp hi
    rw [List.mem_range'_1] at hi
    exact hpayload i (by omega) (of_decide_eq_true hlen)

/-- A sequence in which `decode` can be trusted. -/
theorem run_sublist {d : FECDecoder} {seqNum : ℕ} (hG : Leftover seqNum G)
    (hne : seqNum ≠ r.seq.seqNum) (hat : d.At r.seq (.collecting [] G))
    (h : Run.Along FECDecoder.deliver (FECDecoder.WhenDecoding fun d ↦ d.Trusted r.seq) d
      r.packets) :
    ∃ outs ph, Run.run (Phase.step r.seq) (.collecting [] G) r.got = .ok (outs, ph) ∧
      (payloads outs).Sublist (r.seq.msgs.map some) := by
  rcases r.run_cases G with ⟨-, hrun⟩ | ⟨hdata, hlt, R, k, R₂, hfec, hcount, hdec⟩ |
    ⟨-, -, -, hrun⟩ | ⟨-, ph, hrun, -⟩
  · refine ⟨_, _, hrun, ?_⟩
    rw [payloads_append, payloads_replicate_nil, List.append_nil]
    exact payloads_dataOut_sublist
  · obtain ⟨d', hholds, htrust⟩ := decode_of_along hat hdata hfec hcount h
    have hblocks : d'.blocks ≠ [] := by
      rw [hholds.blocks]
      exact fun h ↦ hdata (List.map_eq_nil_iff.mp h)
    obtain rfl : G = [] := hG.eq_nil hne fun b hb ↦ htrust.own hblocks b (by
      rw [hholds.fecBlocks]
      exact List.mem_append_left _ hb)
    rw [List.nil_append] at hcount hdec
    obtain ⟨out, hout, hsub⟩ := payloads_rebuild_sublist
      (fecPackets (R := R ++ [k]) (by rw [hfec]; exact List.sublist_append_left _ _))
      (enough hdata hlt hcount) fun i hi hiI ↦ by
        rw [← hholds.blockSize]
        exact htrust.fits hblocks i hi (header_ne hholds hiI)
    rw [hout, ok_bind] at hdec
    refine ⟨_, _, hdec, ?_⟩
    rw [payloads_append, payloads_append, payloads_append, payloads_replicate_nil,
      payloads_replicate_nil, List.nil_append, List.append_nil, payloads_dataOut_eq]
    exact sublist_msgs hsub
  · refine ⟨_, _, hrun, ?_⟩
    rw [payloads_append, payloads_replicate_nil, List.append_nil]
    exact payloads_dataOut_sublist
  · refine ⟨_, _, hrun, ?_⟩
    rw [payloads_replicate_nil]
    exact List.nil_sublist _

end Reception

/-! ## All sequences -/

/-- One sequence after the other, when every call of `decode` meets a condition that lets a
sequence succeed with the property `Q`. -/
theorem receive_all {P : FecParams} {ops : List FECEncoder.Op} {qs : List Sequence}
    (hsends : P.Sends ops qs) {rs : List Reception} (hrs : rs.map Reception.seq = qs)
    (hnear : Near rs) {C : Sequence → FECDecoder → Prop} (hC : EveryDecode C rs)
    {Q : Reception → List (List (FECBlock × ℕ)) → Prop}
    (hQ : ∀ (r : Reception) (d : FECDecoder) (seqNum : ℕ) (G : List FECBlock), Leftover seqNum G →
      (r.got ≠ [] → seqNum ≠ r.seq.seqNum ∧ d.At r.seq (.collecting [] G)) →
      Run.Along FECDecoder.deliver (FECDecoder.WhenDecoding (C r.seq)) d r.packets →
      ∃ out ph, Run.run (Phase.step r.seq) (.collecting [] G) r.got = .ok (out, ph) ∧ Q r out) :
    ∃ outs d, Run.run FECDecoder.receive {} rs = .ok (outs, d) ∧ List.Forall₂ Q rs outs := by
  obtain ⟨outs, d, hrun, -, hall⟩ := Run.run_inv_of_along hC
    (fun pre outs d ↦ d.Tracks P pre ∧ List.Forall₂ Q pre outs) ⟨.fresh, .nil⟩ (by
      rintro pre r outs d ⟨post, rfl⟩ ⟨⟨G, hd, hG⟩, hall⟩ halong
      have hseq := hsends.isSequence_of_append hrs
      obtain ⟨out, ph, hrun, hout⟩ := hQ r d _ G hG (fun hr ↦
        ⟨hd.prev_ne hnear hr hseq, .entry (hd.prev_ne hnear hr hseq) hd.between⟩) halong
      obtain ⟨d', hd', htracks⟩ := hd.tracks hG hnear hseq hrun
      exact ⟨out, d', hd', htracks, List.rel_append hall (.cons hout .nil)⟩)
  exact ⟨outs, d, hrun, hall⟩

theorem payloads_flatten_sublist {rs : List Reception} {outs : List (List (List (FECBlock × ℕ)))}
    (h : List.Forall₂ (fun r out ↦ (payloads out).Sublist (r.seq.msgs.map some)) rs outs) :
    (payloads outs.flatten).Sublist (((rs.map Reception.seq).flatMap Sequence.msgs).map some) := by
  induction h with
  | nil => exact List.Sublist.refl _
  | cons hout _ ih =>
      rw [List.flatten_cons, payloads_append, List.map_cons, List.flatMap_cons, List.map_append]
      exact hout.append ih

theorem FecParams.Sends.prefix_messages {P : FecParams} {ops : List FECEncoder.Op}
    {qs : List Sequence} (h : P.Sends ops qs) : qs.flatMap Sequence.msgs <+: messages ops := by
  have hitems := (batches_spec P.numBlocks_pos ops).1
  rw [← hitems, Batches.items, List.flatMap_def, h.msgs, ← List.flatMap_def]
  exact List.prefix_append _ _

/-- Integrity: whatever packets are lost, the payloads the client reads are a subsequence
of the messages given to the encoder, if every call of `decode` can be trusted. -/
theorem decoder_output_sublist (P : FecParams) (ops : List FECEncoder.Op) (hops : P.Admits ops) :
    ∃ qs, P.Sends ops qs ∧ ∀ rs : List Reception, rs.map Reception.seq = qs → Near rs →
      EveryDecode (fun q d ↦ d.Trusted q) rs →
      ∃ outs d, Run.run FECDecoder.receive {} rs = .ok (outs, d) ∧
        (payloads outs.flatten).Sublist ((messages ops).map some) := by
  obtain ⟨qs, hsends⟩ := P.exists_sends hops
  refine ⟨qs, hsends, fun rs hrs hnear htrust ↦ ?_⟩
  obtain ⟨outs, d, hrun, hall⟩ := receive_all hsends hrs hnear htrust
    (Q := fun r out ↦ (payloads out).Sublist (r.seq.msgs.map some)) (by
      intro r d seqNum G hG hat halong
      by_cases hr : r.got = []
      · rw [hr]
        exact ⟨[], _, rfl, List.nil_sublist _⟩
      · obtain ⟨hne, hat⟩ := hat hr
        exact Reception.run_sublist hG hne hat halong)
  refine ⟨outs, d, hrun, (payloads_flatten_sublist hall).trans ?_⟩
  rw [hrs]
  exact (hsends.prefix_messages.map some).sublist

/-- The second of two messages is lost, and `decode` runs. -/
theorem decoder_output_sublist_one_loss :
    ∃ r : Reception, r.seq.msgs = [[1, 2, 3], [7]] ∧ r.got = [0, 2] ∧
      ∃ outs d, Run.run FECDecoder.receive {} [r] = .ok (outs, d) ∧
        (payloads outs.flatten).Sublist [some [1, 2, 3], some [7]] := by
  obtain ⟨qs, hsends, h⟩ := decoder_output_sublist
    { numBlocks := 2, numFecBlocks := 1, maxBlockSize := 10 } [.push [1, 2, 3], .push [7]]
    (by decide)
  have hmsgs : qs.map Sequence.msgs = [[[1, 2, 3], [7]]] := hsends.msgs
  obtain ⟨q, rfl, hq⟩ := List.map_eq_singleton_iff.mp hmsgs
  have hn : q.nPackets = 3 := by
    rw [Sequence.nPackets, Sequence.nBlocks, (hsends.isSequence 0 q rfl).nFecBlocks, hq]
    rfl
  let r : Reception := ⟨q, [0, 2], by rw [hn]; decide⟩
  have hdata : r.data = [0] := by simp [r, Reception.data, Sequence.nBlocks, hq]
  have hat : ({} : FECDecoder).At q (.collecting [] []) := .entry (Nat.ne_of_lt q.seqNum_pos) .fresh
  refine ⟨r, hq, rfl, h [r] rfl (List.isChain_singleton 0) ⟨?_, fun _ _ _ ↦ trivial⟩⟩
  refine Reception.along_whenDecoding (r := r) hat fun R d' hR hholds _ _ ↦
    ⟨fun _ b hb ↦ ?_, fun _ ↦ ?_⟩
  · rw [hholds.fecBlocks] at hb
    obtain ⟨k, hk, rfl⟩ := List.mem_map.mp hb
    exact (Sequence.header_block (Reception.fec_lt (hR.subset hk))).1
  · intro i hi hne
    left
    rw [hholds.blockSize, hdata]
    have h2 : i < 2 := by simpa [Sequence.nBlocks, r, hq] using hi
    interval_cases i <;> simp [Sequence.heldSize, Sequence.msg, r, hq]

/-- Of two sequences of three messages the first FEC packet of the one, and the first data
packet and the second FEC packet of the other arrive.  The FEC block that was left over
is taken for one of the second sequence, and two messages come out that nobody sent. -/
theorem leftover_fec_block_corrupts :
    ∃ out, FecParams.transmit { numBlocks := 3, numFecBlocks := 2, maxBlockSize := 10 }
      [.push [1], .push [2], .push [3], .push [4], .push [5], .push [6]] [3, 5, 9] = .ok out ∧
      ¬ out.Sublist [some [1], some [2], some [3], some [4], some [5], some [6]] :=
  ⟨[some [4], some [201], some [135]], by decide +kernel, by decide⟩

end WfbBridge
