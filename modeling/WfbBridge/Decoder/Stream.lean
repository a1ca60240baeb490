import Mathlib
import WfbBridge.Decoder.Delivery
import WfbBridge.Encoder.Format

/-!
# Sequences over a lossy channel

The encoder and the decoder together.  A loss pattern is a list of `Reception`s,
one for each sequence that was sent; `FECDecoder.receive` feeds the packets of one
of them to the decoder.  `Follows` is the invariant between two sequences, and
`Follows.receive` the step from one sequence to the next.
-/

namespace WfbBridge

open Checked

/-- The encoder, run on `ops`, emits the packets of the sequences `qs`. -/
structure FecParams.Sends (P : FecParams) (ops : List FECEncoder.Op) (qs : List Sequence) :
    Prop where
  emitted : ∃ outs e, Run.run FECEncoder.step P.encoder ops = .ok (outs, e) ∧
    (outs.flatten ++ e.outBlocks).map FECBlock.packet = qs.flatMap Sequence.packets
  msgs : qs.map Sequence.msgs = (batches P.numBlocks ops).closed.map Batch.items
  isSequence : ∀ (j : ℕ) (q : Sequence), qs[j]? = some q → P.IsSequence j q

theorem FecParams.exists_sends (P : FecParams) {ops : List FECEncoder.Op} (hops : P.Admits ops) :
    ∃ qs, P.Sends ops qs := by
  obtain ⟨outs, e, qs, hrun, h⟩ := run_represents P hops
  exact ⟨qs, ⟨outs, e, hrun, FECBlock.map_packet_of_sentAs h.emitted⟩, h.msgs, h.isSequence⟩

/-- The indices of the sequences of which packets arrive. -/
def heard (rs : List Reception) : List ℕ :=
  (rs.zipIdx.filter fun rj ↦ rj.1.got ≠ []).map Prod.snd

/-- Two packets delivered one after the other are less than 255 sequences apart. -/
def Near (rs : List Reception) : Prop := (heard rs).IsChain fun i j ↦ j < i + 255

/-- The packets of a sequence that arrive are given to the decoder. -/
def FECDecoder.receive (d : FECDecoder) (r : Reception) :
    Except Fault (List (List (FECBlock × ℕ)) × FECDecoder) :=
  Run.run FECDecoder.deliver d r.packets

/-- `C` is met whenever `decode` runs while the packets of `rs` arrive. -/
def EveryDecode (C : Sequence → FECDecoder → Prop) (rs : List Reception) : Prop :=
  Run.Along FECDecoder.receive (fun d r ↦
    Run.Along FECDecoder.deliver (FECDecoder.WhenDecoding (C r.seq)) d r.packets) {} rs

/-- What the client reads: the payloads of the blocks `get_block` returned. -/
def payloads (out : List (List (FECBlock × ℕ))) : List (Option (List UInt8)) :=
  out.flatten.map fun b ↦ b.1.payload

/-- A condition on the calls of `decode` that holds of the working set with all data packets
that arrive holds while they do. -/
theorem Reception.along_whenDecoding {r : Reception} {C : FECDecoder → Prop} {d : FECDecoder}
    {G : List FECBlock} (hat : d.At r.seq (.collecting [] G))
    (hC : ∀ (R : List ℕ) (d' : FECDecoder), R <+: r.fec →
      d'.Holds r.seq r.data (G ++ R.map r.seq.block) →
      r.data.length + (G ++ R.map r.seq.block).length = r.seq.nBlocks →
      r.data.length < r.seq.nBlocks → C d') :
    Run.Along FECDecoder.deliver (FECDecoder.WhenDecoding C) d r.packets := by
  refine Run.along_of_agree (R := fun d ph ↦ d.At r.seq ph) (D := fun k ↦ k < r.seq.nPackets)
    (fun _ _ _ hk hat ↦ FECDecoder.At.deliver hat hk) r.got (fun _ hk ↦ got_lt hk) hat ?_
  rintro ks k d₁ ph outs ⟨post, hpost⟩ hrun hat₁ blk d' hblk hdec
  rw [Sequence.ofPacket_packet] at hblk
  obtain rfl := Except.ok.inj hblk
  have hgot : r.got = (ks ++ [k]) ++ post := by simpa using hpost.symm
  -- the packets up to this one are a reception of their own
  let r' : Reception := ⟨r.seq, ks ++ [k], by
    refine List.Sublist.trans ?_ r.got_sublist
    rw [hgot]
    exact List.sublist_append_left _ _⟩
  obtain ⟨hholds, hcount, hk⟩ := decoding_eq_some (r := r') rfl hrun hat₁ hdec
  have hge : ∀ i ∈ post, r.seq.nBlocks ≤ i := by
    intro i hi
    have hs := r.sorted_got
    rw [hgot] at hs
    exact hk.trans ((List.pairwise_append.mp hs).2.2 k (by simp) i hi).le
  have hdata : r.data = r'.data := by
    have hnil : post.filter (· < r.seq.nBlocks) = [] :=
      List.filter_eq_nil_iff.mpr (by simpa using hge)
    rw [Reception.data, hgot, List.filter_append, hnil, List.append_nil]
    rfl
  have hfec : r'.fec <+: r.fec := by
    refine ⟨post.filter (r.seq.nBlocks ≤ ·), ?_⟩
    have happ : r.got.filter (r.seq.nBlocks ≤ ·) = (ks ++ [k]).filter (r.seq.nBlocks ≤ ·) ++
        post.filter (r.seq.nBlocks ≤ ·) := by
      rw [hgot, List.filter_append]
    exact happ.symm
  rw [← hdata] at hholds hcount
  refine hC r'.fec d' hfec hholds hcount ?_
  have hmem : k ∈ r'.fec := List.mem_filter.mpr ⟨by simp [r'], by simpa using hk⟩
  have := List.length_pos_of_mem hmem
  rw [List.length_append, List.length_map] at hcount
  change r.data.length + (G.length + r'.fec.length) = r.seq.nBlocks at hcount
  omega

/-- A whole transmission: the encoder is run on `ops`, the packets at the positions `keep`
of its output arrive, and the client of the decoder reads the payloads. -/
def FecParams.transmit (P : FecParams) (ops : List FECEncoder.Op) (keep : List ℕ) :
    Except Fault (List (Option (List UInt8))) := do
  let (outs, e) ← Run.run FECEncoder.step P.encoder ops
  let packets := (outs.flatten ++ e.outBlocks).map FECBlock.packet
  let (outs, _) ← Run.run FECDecoder.deliver {} (keep.filterMap (packets[·]?))
  .ok (payloads outs)

theorem heard_concat (pre : List Reception) (r : Reception) :
    heard (pre ++ [r]) = heard pre ++ if r.got = [] then [] else [pre.length] := by
  rw [heard, List.zipIdx_append, List.filter_append, List.map_append, heard]
  congr 1
  by_cases h : r.got = [] <;> simp [h]

theorem heard_lt {rs : List Reception} {j : ℕ} (hj : j ∈ heard rs) : j < rs.length := by
  obtain ⟨⟨r, k⟩, hmem, rfl⟩ := List.mem_map.mp hj
  have := List.mem_zipIdx (List.mem_filter.mp hmem).1
  omega

/-- The last sequence of which a packet arrived is less than 255 sequences back. -/
theorem Near.last_lt {pre post : List Reception} {r : Reception} (h : Near (pre ++ r :: post))
    (hr : r.got ≠ []) {i : ℕ} (hlast : (heard pre).getLast? = some i) :
    i < pre.length ∧ pre.length < i + 255 := by
  obtain ⟨l, hl⟩ := List.getLast?_eq_some_iff.mp hlast
  have hchain : (heard (pre ++ [r])).IsChain fun i j ↦ j < i + 255 := by
    have happ : heard (pre ++ r :: post) = heard (pre ++ [r]) ++
        (heard (pre ++ r :: post)).drop (heard (pre ++ [r])).length := by
      rw [← List.singleton_append, ← List.append_assoc, heard, List.zipIdx_append,
        List.filter_append, List.map_append, ← heard, List.drop_left]
    rw [Near, happ] at h
    exact h.left_of_append
  rw [heard_concat, if_neg hr, hl, List.append_assoc] at hchain
  refine ⟨heard_lt (by rw [hl]; simp), ?_⟩
  have := hchain.right_of_append
  simpa using this

/-- `seq_num` of the last packet that arrived; 0 before the first. -/
def FecParams.lastSeqNum (P : FecParams) (pre : List Reception) : ℕ :=
  ((heard pre).getLast?.map P.seqNumAt).getD 0

/-- The decoder after the sequences `pre`: `G` are FEC blocks that are left over. -/
structure FECDecoder.Follows (P : FecParams) (pre : List Reception) (d : FECDecoder)
    (G : List FECBlock) : Prop where
  between : d.Between G
  prev : d.prevHeader.seqNum = P.lastSeqNum pre

namespace FECDecoder.Follows

variable {P : FecParams} {pre post : List Reception} {r : Reception} {d : FECDecoder}
  {G : List FECBlock}

theorem fresh : Follows P [] {} [] := ⟨.fresh, rfl⟩

/-- No sequence number is taken for the one before. -/
theorem prev_ne (h : d.Follows P pre G) (hnear : Near (pre ++ r :: post)) (hr : r.got ≠ [])
    (hseq : P.IsSequence pre.length r.seq) : d.prevHeader.seqNum ≠ r.seq.seqNum := by
  rw [h.prev, hseq.seqNum, FecParams.lastSeqNum]
  cases hlast : (heard pre).getLast? with
  | none => exact Nat.zero_ne_add_one _
  | some i =>
      obtain ⟨hi, hlt⟩ := hnear.last_lt hr hlast
      exact FecParams.seqNumAt_ne hi hlt

/-- A decoder that follows `pre` goes through the next sequence as the phases do. -/
theorem receive (h : d.Follows P pre G) (hnear : Near (pre ++ r :: post))
    (hseq : P.IsSequence pre.length r.seq) {outs : List (List (FECBlock × ℕ))} {ph : Phase}
    (hrun : Run.run (Phase.step r.seq) (.collecting [] G) r.got = .ok (outs, ph)) :
    ∃ d', d.receive r = .ok (outs, d') ∧ d'.Follows P (pre ++ [r]) ph.leftover := by
  rw [FECDecoder.receive, Reception.packets]
  by_cases hr : r.got = []
  · rw [hr] at hrun ⊢
    obtain ⟨rfl, rfl⟩ := Prod.mk.inj (Except.ok.inj hrun)
    refine ⟨d, rfl, h.between, ?_⟩
    rw [h.prev, FecParams.lastSeqNum, FecParams.lastSeqNum, heard_concat, if_pos hr,
      List.append_nil]
  · have hat : d.At r.seq (.collecting [] G) := .entry (h.prev_ne hnear hr hseq) h.between
    have hagree := hat.run r.got fun k hk ↦ Reception.got_lt hk
    rw [hrun] at hagree
    obtain ⟨d', hd', hat'⟩ := hagree.of_ok
    refine ⟨d', hd', hat'.between, ?_⟩
    rw [hat'.prev_eq (Phase.entered_run hrun hr), hseq.seqNum, FecParams.lastSeqNum, heard_concat,
      if_neg hr, List.getLast?_concat]
    rfl

/-- And the other way round: a sequence that is received is one of the phases. -/
theorem of_receive (h : d.Follows P pre G) (hnear : Near (pre ++ r :: post))
    (hseq : P.IsSequence pre.length r.seq) {outs : List (List (FECBlock × ℕ))} {d' : FECDecoder}
    (hd : d.receive r = .ok (outs, d')) :
    ∃ ph, Run.run (Phase.step r.seq) (.collecting [] G) r.got = .ok (outs, ph) ∧
      d'.Follows P (pre ++ [r]) ph.leftover := by
  have hphase : ∃ ph, Run.run (Phase.step r.seq) (.collecting [] G) r.got = .ok (outs, ph) := by
    by_cases hr : r.got = []
    · rw [FECDecoder.receive, Reception.packets, hr] at hd
      obtain ⟨rfl, -⟩ := Prod.mk.inj (Except.ok.inj hd)
      rw [hr]
      exact ⟨_, rfl⟩
    · have hagree := (At.entry (h.prev_ne hnear hr hseq) h.between).run r.got
        fun k hk ↦ Reception.got_lt hk
      rw [FECDecoder.receive, Reception.packets] at hd
      rw [hd] at hagree
      obtain ⟨ph, hph, -⟩ := hagree.to_ok
      exact ⟨ph, hph⟩
  obtain ⟨ph, hph⟩ := hphase
  obtain ⟨d'', hd'', hfollows⟩ := h.receive hnear hseq hph
  obtain ⟨-, rfl⟩ := Prod.mk.inj (Except.ok.inj (hd.symm.trans hd''))
  exact ⟨ph, hph, hfollows⟩

end FECDecoder.Follows

/-- The place of a reception among the sequences that were sent. -/
theorem FecParams.Sends.isSequence_of_append {P : FecParams} {ops : List FECEncoder.Op}
    {qs : List Sequence} (h : P.Sends ops qs) {pre post : List Reception} {r : Reception}
    (hrs : (pre ++ r :: post).map Reception.seq = qs) : P.IsSequence pre.length r.seq := by
  refine h.isSequence pre.length r.seq ?_
  rw [← hrs]
  simp

end WfbBridge
