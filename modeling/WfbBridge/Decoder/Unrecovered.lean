import Mathlib
import WfbBridge.Decoder.Recovery

/-!
# What is not recovered

Two kinds of sequences the decoder never outputs completely, although enough of
their packets arrive: those of which no data packet arrives, and those of which
all longest messages are lost.

The sequences before may be delivered in any way.  The only thing that is asked is
that the packet before the sequence does not carry the same sequence number; with
equal numbers the decoder takes the two sequences for one.
-/

namespace WfbBridge

open Checked

namespace FECDecoder

/-- The part of `Between` that holds after any packets of an encoder. -/
structure Steady (d : FECDecoder) : Prop where
  prev_lt : d.prevHeader.seqNum < 256
  blocks : d.blockSize = 0 → d.blocks = []
  outBlocks : d.outBlocks = []

theorem Steady.fresh : ({} : FECDecoder).Steady := ⟨by decide, fun _ ↦ rfl, rfl⟩

theorem Steady.between {d : FECDecoder} (h : d.Steady) :
    d.Between (if d.blockSize = 0 then d.fecBlocks else []) :=
  ⟨h.prev_lt, h.blocks, rfl, h.outBlocks⟩

theorem enterSequence_blocks {d d' : FECDecoder} {h : FECHeader}
    (hd : d.blockSize = 0 → d.blocks = []) (henter : d.enterSequence h = some d') :
    d'.blockSize = 0 → d'.blocks = [] := by
  simp only [enterSequence] at henter
  split_ifs at henter
  · obtain rfl := Option.some.inj henter
    exact fun _ ↦ rfl
  · obtain rfl := Option.some.inj henter
    exact hd
  · obtain rfl := Option.some.inj henter
    exact hd
  · obtain rfl := Option.some.inj henter
    exact hd

theorem countSkipped_blocks (d : FECDecoder) (h : FECHeader) :
    (d.countSkipped h).blockSize = d.blockSize ∧ (d.countSkipped h).blocks = d.blocks := by
  rw [countSkipped]
  split <;> exact ⟨rfl, rfl⟩

theorem addDataBlock_steady (d : FECDecoder) (blk : FECBlock) (hblk : blk.blockSize ≠ 0) :
    ((d.addDataBlock blk).blockSize = 0 → (d.addDataBlock blk).blocks = []) ∧
      (d.addDataBlock blk).prevHeader = d.prevHeader := by
  rw [addDataBlock_eq]
  dsimp only
  split
  · exact ⟨fun _ ↦ rfl, rfl⟩
  · refine ⟨fun h0 ↦ absurd h0 ?_, rfl⟩
    have := le_max_right d.blockSize blk.blockSize
    dsimp only
    omega

theorem addFecBlock_steady {d d' : FECDecoder} {blk : FECBlock}
    (hd : d.blockSize = 0 → d.blocks = []) (h : d.addFecBlock blk = .ok d') :
    (d'.blockSize = 0 → d'.blocks = []) ∧ d'.prevHeader = d.prevHeader := by
  rw [addFecBlock] at h
  dsimp only at h
  split at h
  · obtain ⟨d₁, hdec, h⟩ := bind_eq_ok.mp h
    obtain rfl := Except.ok.inj h
    refine ⟨fun _ ↦ rfl, ?_⟩
    rcases decode_released { d with fecBlocks := d.fecBlocks ++ [blk] } with
      ⟨_, d₂, -, hdec₂, -, hprev⟩ | ⟨f, -, hdec₂⟩
    · obtain rfl := Except.ok.inj (hdec.symm.trans hdec₂)
      exact hprev
    · exact absurd (hdec.symm.trans hdec₂) (by simp)
  · obtain rfl := Except.ok.inj h
    exact ⟨hd, rfl⟩

theorem Steady.addPacket {d d' : FECDecoder} {q : Sequence} {k : ℕ} (hd : d.Steady)
    (hk : k < q.nPackets) (h : d.addPacket (q.block k) = .ok d') :
    (d'.blockSize = 0 → d'.blocks = []) ∧ d'.prevHeader.seqNum = q.seqNum := by
  obtain ⟨hseq, -, -, -⟩ := Sequence.header_block hk
  simp only [FECDecoder.addPacket, if_neg (not_passThrough hk)] at h
  cases henter : (d.countPacket (q.block k).pktLength).enterSequence (q.block k).header with
  | none =>
      rw [henter] at h
      obtain rfl := Except.ok.inj h
      exact ⟨hd.blocks, hseq⟩
  | some d₁ =>
      simp only [henter, Sequence.isDataBlock_block hk] at h
      have hblocks :=
        enterSequence_blocks (d := d.countPacket (q.block k).pktLength) hd.blocks henter
      obtain ⟨hbs, hbl⟩ := countSkipped_blocks { d₁ with prevHeader := (q.block k).header }
        (q.block k).header
      by_cases hdata : k < q.nBlocks
      · rw [if_pos hdata] at h
        obtain rfl := Except.ok.inj h
        obtain ⟨hsteady, hprev⟩ := addDataBlock_steady
          ({ d₁ with prevHeader := (q.block k).header }.countSkipped (q.block k).header) (q.block k)
          (by
            rw [Sequence.blockSize_block hdata]
            exact Nat.succ_ne_zero _)
        refine ⟨hsteady, ?_⟩
        rw [hprev, countSkipped_prevHeader]
        exact hseq
      · rw [if_neg hdata] at h
        obtain ⟨hsteady, hprev⟩ := addFecBlock_steady (by rw [hbs, hbl]; exact hblocks) h
        refine ⟨hsteady, ?_⟩
        rw [hprev, countSkipped_prevHeader]
        exact hseq

theorem Steady.deliver {d d' : FECDecoder} {q : Sequence} {k : ℕ} {out : List (FECBlock × ℕ)}
    (hd : d.Steady) (hk : k < q.nPackets) (h : d.deliver (q.packet k) = .ok (out, d')) :
    d'.Steady ∧ d'.prevHeader.seqNum = q.seqNum := by
  rw [FECDecoder.deliver, FECDecoder.addBlock, Sequence.ofPacket_packet, ok_bind] at h
  obtain ⟨d₁, hd₁, h⟩ := bind_eq_ok.mp h
  obtain ⟨-, rfl⟩ := Prod.mk.inj (Except.ok.inj h)
  obtain ⟨hblocks, hprev⟩ := hd.addPacket hk hd₁
  refine ⟨⟨?_, hblocks, rfl⟩, hprev⟩
  have hlt := q.seqNum_lt
  rw [← hprev] at hlt
  exact hlt

theorem Steady.receive {d d' : FECDecoder} {r : Reception} {out : List (List (FECBlock × ℕ))}
    (hd : d.Steady) (h : d.receive r = .ok (out, d')) :
    d'.Steady ∧
      d'.prevHeader.seqNum = if r.got = [] then d.prevHeader.seqNum else r.seq.seqNum := by
  have hinv := Run.inv_of_run (P := fun pkts d' ↦ d'.Steady ∧ d'.prevHeader.seqNum =
    if pkts = [] then d.prevHeader.seqNum else r.seq.seqNum) ⟨hd, rfl⟩ ?_ h
  · simpa [Reception.packets] using hinv
  rintro pre pkt d₁ out₁ d₂ ⟨post, hpost⟩ ⟨hd₁, -⟩ hdeliver
  obtain ⟨k, hk, rfl⟩ : ∃ k ∈ r.got, r.seq.packet k = pkt := by
    have hmem : pkt ∈ r.packets := by rw [← hpost]; simp
    simpa [Reception.packets] using hmem
  obtain ⟨hd₂, hprev⟩ := hd₁.deliver (Reception.got_lt hk) hdeliver
  exact ⟨hd₂, by rw [hprev, if_neg (by simp)]⟩

/-- A decoder that has been through any receptions of the sequences of an encoder. -/
theorem steady_run {P : FecParams} {pre : List Reception} {d : FECDecoder}
    {outs : List (List (List (FECBlock × ℕ)))}
    (hseq : ∀ (j : ℕ) (r : Reception), pre[j]? = some r → P.IsSequence j r.seq)
    (h : Run.run FECDecoder.receive {} pre = .ok (outs, d)) :
    d.Steady ∧ d.prevHeader.seqNum = P.lastSeqNum pre := by
  refine Run.inv_of_run (P := fun pre d ↦ d.Steady ∧ d.prevHeader.seqNum = P.lastSeqNum pre)
    ⟨.fresh, rfl⟩ ?_ h
  rintro pre r d₁ out d₂ ⟨post, rfl⟩ ⟨hd₁, hprev⟩ hreceive
  obtain ⟨hd₂, hprev₂⟩ := hd₁.receive hreceive
  refine ⟨hd₂, ?_⟩
  rw [hprev₂, FecParams.lastSeqNum, heard_concat]
  by_cases hr : r.got = []
  · rw [if_pos hr, if_pos hr, List.append_nil]
    exact hprev
  · rw [if_neg hr, if_neg hr, List.getLast?_concat, (hseq pre.length r (by simp)).seqNum]
    rfl

end FECDecoder

/-! ## After any receptions -/

/-- All messages of `r` are output while its packets arrive, after those of `pre`. -/
def Recovered (pre : List Reception) (r : Reception) : Prop :=
  ∃ outs out d, Run.run FECDecoder.receive {} (pre ++ [r]) = .ok (outs ++ [out], d) ∧
    ∀ m ∈ r.seq.msgs, some m ∈ payloads out

/-- Unless it is taken for the sequence before, a sequence goes through the phases with
some FEC blocks left over. -/
theorem exists_run_phase {P : FecParams} {ops : List FECEncoder.Op} {qs : List Sequence}
    (hsends : P.Sends ops qs) {pre post : List Reception} {r : Reception}
    (hrs : (pre ++ r :: post).map Reception.seq = qs) (hlast : P.lastSeqNum pre ≠ r.seq.seqNum)
    {outs : List (List (List (FECBlock × ℕ)))} {out : List (List (FECBlock × ℕ))} {d : FECDecoder}
    (hrun : Run.run FECDecoder.receive {} (pre ++ [r]) = .ok (outs ++ [out], d)) :
    ∃ G ph, Run.run (Phase.step r.seq) (.collecting [] G) r.got = .ok (out, ph) := by
  obtain ⟨outs₁, d₁, outs₂, hpre, hlast₂, houts⟩ := Run.run_append_eq_ok.mp hrun
  obtain ⟨out', d₂, _, hreceive, hnil, rfl⟩ := Run.run_cons_eq_ok.mp hlast₂
  obtain ⟨rfl, -⟩ := Prod.mk.inj (Except.ok.inj hnil)
  obtain ⟨-, hout⟩ := List.append_inj' houts rfl
  obtain rfl : out = out' := by simpa using hout
  obtain ⟨hsteady, hprev⟩ := FECDecoder.steady_run (P := P) (fun j s hs ↦ by
    refine hsends.isSequence j s.seq ?_
    have hj : j < pre.length := (List.getElem?_eq_some_iff.mp hs).1
    rw [← hrs, List.getElem?_map, List.getElem?_append_left hj, hs, Option.map_some]) hpre
  have hat : d₁.At r.seq (.collecting [] _) := .entry (by rwa [hprev]) hsteady.between
  have hagree := hat.run r.got fun k hk ↦ Reception.got_lt hk
  have hreceive' : Run.run FECDecoder.deliver d₁ (r.got.map r.seq.packet) = .ok (out, d₂) :=
    hreceive
  rw [hreceive'] at hagree
  obtain ⟨ph, hph, -⟩ := hagree.to_ok
  exact ⟨_, ph, hph⟩

/-- A reception of which nothing arrives. -/
def Sequence.lost (q : Sequence) : Reception := ⟨q, [], List.nil_sublist _⟩

theorem heard_lost (qs : List Sequence) : heard (qs.map Sequence.lost) = [] := by
  rw [heard, List.filter_eq_nil_iff.mpr, List.map_nil]
  intro rj hrj
  obtain ⟨q, -, hq⟩ := List.mem_map.mp (List.fst_mem_of_mem_zipIdx hrj)
  rw [← hq]
  simp [Sequence.lost]

/-- A sequence that is never recovered after a packet with another number is not
recovered whatever arrived before: it is lost if nothing did. -/
theorem not_forall_recovered {P : FecParams} {pre : List Reception} {r : Reception}
    (h : ∀ pre' : List Reception, pre'.map Reception.seq = pre.map Reception.seq →
      P.lastSeqNum pre' ≠ r.seq.seqNum → ¬ Recovered pre' r) :
    ¬ ∀ pre' : List Reception, pre'.map Reception.seq = pre.map Reception.seq →
      Recovered pre' r := by
  intro hall
  have hseq : ((pre.map Reception.seq).map Sequence.lost).map Reception.seq =
      pre.map Reception.seq := by
    rw [List.map_map]
    exact List.map_id _
  refine h _ hseq ?_ (hall _ hseq)
  rw [FecParams.lastSeqNum, heard_lost]
  exact Nat.ne_of_lt r.seq.seqNum_pos

/-! ## FEC packets alone -/

/-- A sequence of which no data packet arrives is not output,
however many of its FEC packets do. -/
theorem not_recovered_without_data (P : FecParams) (ops : List FECEncoder.Op)
    (hops : P.Admits ops) : ∃ qs, P.Sends ops qs ∧
      ∀ (pre : List Reception) (r : Reception) (post : List Reception),
        (pre ++ r :: post).map Reception.seq = qs → r.data = [] →
        (P.lastSeqNum pre ≠ r.seq.seqNum → ¬ Recovered pre r) ∧
        ¬ ∀ pre' : List Reception, pre'.map Reception.seq = pre.map Reception.seq →
          Recovered pre' r := by
  obtain ⟨qs, hsends⟩ := P.exists_sends hops
  refine ⟨qs, hsends, fun pre r post hrs hdata ↦ ?_⟩
  have h : ∀ pre' : List Reception, pre'.map Reception.seq = pre.map Reception.seq →
      P.lastSeqNum pre' ≠ r.seq.seqNum → ¬ Recovered pre' r := by
    rintro pre' hpre' hlast ⟨outs, out, d, hrun, hout⟩
    have hrs' : (pre' ++ r :: post).map Reception.seq = qs := by
      rw [← hrs, List.map_append, List.map_append, hpre']
    obtain ⟨G, ph, hph⟩ := exists_run_phase hsends hrs' hlast hrun
    have hpos := r.seq.nBlocks_pos
    rcases r.run_cases G with ⟨hfull, -⟩ | ⟨hne, -⟩ | ⟨hne, -⟩ | ⟨-, ph', hph', -⟩
    · rw [hdata, List.length_nil] at hfull
      omega
    · exact hne hdata
    · exact hne hdata
    · obtain ⟨rfl, -⟩ := Prod.mk.inj (Except.ok.inj (hph.symm.trans hph'))
      have hmem := hout _ (Sequence.msg_mem hpos)
      rw [payloads_replicate_nil] at hmem
      exact List.not_mem_nil hmem
  exact ⟨h pre rfl, not_forall_recovered h⟩

theorem not_recovered_without_data_flushed : ∃ r : Reception, r.seq.msgs = [[7]] ∧ r.got = [1, 2] ∧
    ¬ Recovered [] r := by
  obtain ⟨qs, hsends, h⟩ := not_recovered_without_data
    { numBlocks := 4, numFecBlocks := 2, maxBlockSize := 10 } [.push [7], .flush] (by decide)
  have hmsgs : qs.map Sequence.msgs = [[[7]]] := hsends.msgs
  obtain ⟨q, rfl, hq⟩ := List.map_eq_singleton_iff.mp hmsgs
  have hn : q.nPackets = 3 := by
    rw [Sequence.nPackets, Sequence.nBlocks, (hsends.isSequence 0 q rfl).nFecBlocks, hq]
    rfl
  let r : Reception := ⟨q, [1, 2], by rw [hn]; decide⟩
  have hdata : r.data = [] := by simp [r, Reception.data, Sequence.nBlocks, hq]
  exact ⟨r, hq, rfl, (h [] r [] rfl hdata).1 (Nat.ne_of_lt q.seqNum_pos)⟩

/-- One message closed by a flush, and its FEC packet arrives: nothing is output. -/
theorem single_fec_packet_outputs_nothing :
    ∃ out, FecParams.transmit { numBlocks := 4, numFecBlocks := 2, maxBlockSize := 10 }
      [.push [7], .flush] [1] = .ok out ∧ some [7] ∉ out :=
  ⟨[], by decide +kernel, by decide⟩

/-! ## The longest messages -/

theorem mem_payloads {out : List (List (FECBlock × ℕ))} {p : Option (List UInt8)} :
    p ∈ payloads out ↔ ∃ bs ∈ out, ∃ b ∈ bs, b.1.payload = p := by
  simp only [payloads, List.mem_map, List.mem_flatten]
  constructor
  · rintro ⟨b, ⟨bs, hbs, hb⟩, hp⟩
    exact ⟨bs, hbs, b, hb, hp⟩
  · rintro ⟨bs, hbs, b, hb, hp⟩
    exact ⟨b, ⟨bs, hbs, hb⟩, hp⟩

namespace Reception

variable {r : Reception} {G : List FECBlock} {m : List UInt8}

theorem mem_payloads_dataOut (h : some m ∈ payloads (Phase.dataOut r.seq r.data)) :
    ∃ i ∈ r.data, m = r.seq.msg i := by
  obtain ⟨bs, hbs, b, hb, hp⟩ := mem_payloads.mp h
  obtain ⟨t, ht, rfl⟩ := List.mem_mapIdx.mp hbs
  split at hb
  case isTrue =>
    have hmem : r.data[t] ∈ r.data := List.getElem_mem ht
    obtain rfl := List.mem_singleton.mp hb
    rw [Sequence.payload_block (data_lt hmem)] at hp
    exact ⟨_, hmem, (Option.some.inj hp).symm⟩
  case isFalse => exact absurd hb List.not_mem_nil

/-- Whatever `decode` rebuilds is no longer than the messages that arrived. -/
theorem length_le_of_mem_rebuild (henough : r.seq.Enough r.data G) {out : List (FECBlock × ℕ)}
    (hout : r.seq.rebuild r.data G = .ok out) (h : some m ∈ payloads [out]) :
    m.length + 2 ≤ r.seq.heldSize r.data := by
  obtain ⟨rb, i₀, first, -, -, rfl, hrb, hdata⟩ := henough.rebuild_frame hout
  obtain ⟨bs, hbs, b, hb, hp⟩ := mem_payloads.mp h
  obtain rfl := List.mem_singleton.mp hbs
  obtain ⟨i, hi, rfl⟩ := List.mem_map.mp hb
  have hlt : i < r.seq.nBlocks := by
    have := List.mem_range'_1.mp (List.mem_filter.mp hi).1
    omega
  by_cases hiI : i ∈ r.data
  · rw [hrb i hiI, Sequence.payload_block hlt] at hp
    rw [← Option.some.inj hp]
    exact Sequence.le_heldSize hiI
  · obtain ⟨x, hx, hlen⟩ := hdata i (Sequence.mem_erased.mpr ⟨hlt, hiI⟩)
    obtain ⟨hlength, hle⟩ := FECBlock.length_payload hp
    rw [← hlength, hx, List.length_append, Sequence.length_tag, hlen] at hle
    simp only [fecOverhead] at hle
    omega

/-- No payload is longer than the messages that arrived. -/
theorem length_le_of_mem_payloads (hne : r.data ≠ []) {out : List (List (FECBlock × ℕ))}
    {ph : Phase} (hrun : Run.run (Phase.step r.seq) (.collecting [] G) r.got = .ok (out, ph))
    (hm : some m ∈ payloads out) : m.length + 2 ≤ r.seq.heldSize r.data := by
  have hdata : some m ∈ payloads (Phase.dataOut r.seq r.data) →
      m.length + 2 ≤ r.seq.heldSize r.data := by
    intro h
    obtain ⟨i, hi, rfl⟩ := mem_payloads_dataOut h
    exact Sequence.le_heldSize hi
  rcases r.run_cases G with ⟨-, hrun'⟩ | ⟨-, hlt, R, k, R₂, -, hcount, hdec⟩ | ⟨-, -, -, hrun'⟩ |
    ⟨hnil, -⟩
  · obtain ⟨rfl, -⟩ := Prod.mk.inj (Except.ok.inj (hrun.symm.trans hrun'))
    rw [payloads_append, payloads_replicate_nil, List.append_nil] at hm
    exact hdata hm
  · rw [hdec] at hrun
    obtain ⟨o, ho, hok⟩ := bind_eq_ok.mp hrun
    obtain ⟨rfl, -⟩ := Prod.mk.inj (Except.ok.inj hok)
    rw [payloads_append, payloads_append, payloads_append, payloads_replicate_nil,
      payloads_replicate_nil, List.nil_append, List.append_nil, List.mem_append] at hm
    exact hm.elim hdata fun h ↦ length_le_of_mem_rebuild (enough hne hlt hcount) ho h
  · obtain ⟨rfl, -⟩ := Prod.mk.inj (Except.ok.inj (hrun.symm.trans hrun'))
    rw [payloads_append, payloads_replicate_nil, List.append_nil] at hm
    exact hdata hm
  · exact absurd hnil hne

end Reception

/-- A sequence that loses all its longest messages is not output completely, even if
enough of its packets arrive. -/
theorem not_recovered_without_longest (P : FecParams) (ops : List FECEncoder.Op)
    (hops : P.Admits ops) : ∃ qs, P.Sends ops qs ∧
      ∀ (pre : List Reception) (r : Reception) (post : List Reception),
        (pre ++ r :: post).map Reception.seq = qs → r.data ≠ [] →
        (∀ i ∈ r.data, (r.seq.msg i).length < longest r.seq.msgs) →
        (P.lastSeqNum pre ≠ r.seq.seqNum → ¬ Recovered pre r) ∧
        ¬ ∀ pre' : List Reception, pre'.map Reception.seq = pre.map Reception.seq →
          Recovered pre' r := by
  obtain ⟨qs, hsends⟩ := P.exists_sends hops
  refine ⟨qs, hsends, fun pre r post hrs hne hshort ↦ ?_⟩
  have h : ∀ pre' : List Reception, pre'.map Reception.seq = pre.map Reception.seq →
      P.lastSeqNum pre' ≠ r.seq.seqNum → ¬ Recovered pre' r := by
    rintro pre' hpre' hlast ⟨outs, out, d, hrun, hout⟩
    have hrs' : (pre' ++ r :: post).map Reception.seq = qs := by
      rw [← hrs, List.map_append, List.map_append, hpre']
    obtain ⟨G, ph, hph⟩ := exists_run_phase hsends hrs' hlast hrun
    obtain ⟨m, hm, hlong⟩ := exists_longest r.seq.msgs_ne
    obtain ⟨i, hi, hsize⟩ := Sequence.exists_heldSize (q := r.seq) hne
    have hle := Reception.length_le_of_mem_payloads hne hph (hout m hm)
    have := hshort i hi
    omega
  exact ⟨h pre rfl, not_forall_recovered h⟩

theorem not_recovered_without_longest_two : ∃ r : Reception,
    r.seq.msgs = [[7], [1, 2, 3, 4, 5]] ∧ r.got = [0, 2] ∧ ¬ Recovered [] r := by
  obtain ⟨qs, hsends, h⟩ := not_recovered_without_longest
    { numBlocks := 2, numFecBlocks := 1, maxBlockSize := 20 } [.push [7], .push [1, 2, 3, 4, 5]]
    (by decide)
  have hmsgs : qs.map Sequence.msgs = [[[7], [1, 2, 3, 4, 5]]] := hsends.msgs
  obtain ⟨q, rfl, hq⟩ := List.map_eq_singleton_iff.mp hmsgs
  have hn : q.nPackets = 3 := by
    rw [Sequence.nPackets, Sequence.nBlocks, (hsends.isSequence 0 q rfl).nFecBlocks, hq]
    rfl
  let r : Reception := ⟨q, [0, 2], by rw [hn]; decide⟩
  have hdata : r.data = [0] := by simp [r, Reception.data, Sequence.nBlocks, hq]
  refine ⟨r, hq, rfl, (h [] r [] rfl (by simp [hdata]) ?_).1 (Nat.ne_of_lt q.seqNum_pos)⟩
  rw [hdata, List.forall_mem_singleton]
  simp [r, Sequence.msg, hq, longest]

/-- The longer of two messages is lost, and the other one and the FEC packet arrive: the
longer one is dropped. -/
theorem lost_longest_not_rebuilt :
    ∃ out, FecParams.transmit { numBlocks := 2, numFecBlocks := 1, maxBlockSize := 20 }
      [.push [7], .push [1, 2, 3, 4, 5]] [0, 2] = .ok out ∧ some [1, 2, 3, 4, 5] ∉ out :=
  ⟨[some [7]], by decide +kernel, by decide⟩

end WfbBridge
