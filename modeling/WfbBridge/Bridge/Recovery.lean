import Mathlib
import WfbBridge.Bridge.Refinement

/-!
# What survives the losses

Without FEC the packets that are written are some of those that were read.  With FEC, blocks that
are withheld do no harm, and frames that are lost do none as long as each sequence keeps enough of
its packets.  Here the threads also get through: a link that can decode whatever is left of its
packets does not stop them.
-/

namespace WfbBridge

open Checked

/-! ## What is left of the blocks of an encoder -/

/-- Whether a block is a data block can be read off its packet. -/
theorem FECBlock.isDataBlock_iff_packet {b : FECBlock} (h : 3 ≤ b.packet.length) :
    b.isDataBlock ↔ (b.packet.getD 1 0).toNat < (b.packet.getD 2 0).toNat := by
  have hlen : b.packet.length ≤ b.dataLength := List.length_take_le _ _
  have hbyte : ∀ i < 3, b.packet.getD i 0 = b.data.getD i 0 := by
    intro i hi
    rw [List.getD_eq_getElem?_getD, List.getD_eq_getElem?_getD, FECBlock.packet,
      List.getElem?_take_of_lt (by omega)]
  rw [hbyte 1 (by decide), hbyte 2 (by decide)]
  rfl

/-- The packet of a data block is not withheld. -/
theorem Losses.not_packet {L : Losses} (hL : L.frames = false) {b : FECBlock}
    (hdata : b.isDataBlock) (hlen : 3 ≤ b.packet.length) : ¬L.packet b.packet := by
  rintro (hframes | ⟨b', hfec, hpkt⟩)
  · rw [hL] at hframes
    cases hframes
  · refine hfec ((FECBlock.isDataBlock_iff_packet (hpkt ▸ hlen)).mpr ?_)
    rw [hpkt]
    exact (FECBlock.isDataBlock_iff_packet hlen).mp hdata

theorem Sequence.packet_block (q : Sequence) (k : ℕ) : (q.block k).packet = q.packet k :=
  List.take_length

/-- What arrives of a sequence. -/
theorem Sequence.exists_reception {D : List UInt8 → Prop} {q : Sequence} {kept : List (List UInt8)}
    (h : Drops D q.packets kept) :
    ∃ r : Reception, r.seq = q ∧ r.packets = kept ∧ ∀ k < q.nPackets, ¬D (q.packet k) →
      k ∈ r.got := by
  obtain ⟨got, hgot, rfl⟩ := h.exists_map
  exact ⟨⟨q, got, hgot.sublist⟩, rfl, rfl, fun k hk hD ↦ hgot.mem (List.mem_range.mpr hk) hD⟩

/-- What arrives of all sequences. -/
theorem Sequence.exists_receptions {D : List UInt8 → Prop} {qs : List Sequence}
    {kept : List (List UInt8)} (h : Drops D (qs.flatMap Sequence.packets) kept) :
    ∃ rs : List Reception, rs.map Reception.seq = qs ∧ rs.flatMap Reception.packets = kept ∧
      ∀ r ∈ rs, ∀ k < r.seq.nPackets, ¬D (r.seq.packet k) → k ∈ r.got := by
  rw [List.flatMap_def] at h
  obtain ⟨ks, hks, rfl⟩ := h.exists_flatten
  rw [List.forall₂_map_left_iff] at hks
  clear h
  induction hks with
  | nil => exact ⟨[], rfl, rfl, by simp⟩
  | cons hq _ ih =>
      obtain ⟨r, rfl, rfl, hr⟩ := exists_reception hq
      obtain ⟨rs, rfl, hpackets, hrs⟩ := ih
      refine ⟨r :: rs, rfl, by rw [List.flatMap_cons, hpackets, List.flatten_cons], ?_⟩
      exact List.forall_mem_cons.mpr ⟨hr, hrs⟩

/-- Sequences that keep a longest message and enough of their packets are output. -/
theorem run_deliver_receptions {P : FecParams} (rs : List Reception)
    (hseq : ∀ (j : ℕ) (r : Reception), rs[j]? = some r → P.IsSequence j r.seq)
    (hrs : ∀ r ∈ rs, r.KeepsLongest ∧ r.seq.nBlocks ≤ r.got.length) :
    ∃ outs d, Run.run FECDecoder.deliver {} (rs.flatMap Reception.packets) = .ok (outs, d) ∧
      payloads outs = (rs.flatMap fun r ↦ r.seq.msgs).map some := by
  obtain ⟨outs, d, hrun, hall⟩ := run_receive_longest rs hseq fun r hr ↦ (hrs r hr).1
  refine ⟨outs.flatten, d, ?_, ?_⟩
  · rw [List.flatMap_def]
    refine Run.run_flatten ?_
    rw [← Run.run_comap]
    exact hrun
  · clear hrun hseq
    induction hall with
    | nil => rfl
    | @cons r out rs outs hout _ ih =>
        obtain ⟨hr, hrs⟩ := List.forall_mem_cons.mp hrs
        rw [List.flatten_cons, payloads_append, ih hrs, List.flatMap_cons, List.map_append,
          hout hr.2]

namespace Channel

variable {l : Link} {e : FECEncoder} {emitted : List FECBlock} {msgs kept : List (List UInt8)}

/-- Without FEC, any of the packets are decoded to their messages. -/
theorem decoded_plain (hoff : l.FecOff) (h : Channel l e emitted msgs)
    (hkept : kept.Sublist (emitted.map FECBlock.packet)) :
    ∃ outs d, ∃ done : List (List UInt8), Run.run FECDecoder.deliver {} kept = .ok (outs, d) ∧
      payloads outs = done.map some ∧ done.Sublist msgs := by
  cases h with
  | fec hfec => exact absurd hoff hfec
  | plain _ h _ hfit =>
      obtain ⟨blocks, hblocks, rfl⟩ := List.sublist_map_iff.mp hkept
      obtain ⟨done, hdone, hplain⟩ := h.emitted.exists_sublist hblocks
      obtain ⟨outs, d, hrun, hpay⟩ := run_deliver_plain hoff hplain
        (fun m hm ↦ hfit m (hdone.subset hm)) {} rfl
      exact ⟨outs, d, done, hrun, hpay, hdone⟩

/-- The sequences behind the packets of an encoder with FEC. -/
theorem exists_sequences (hfec : ¬l.FecOff) (h : Channel l e emitted msgs) :
    ∃ qs : List Sequence,
      (∀ (j : ℕ) (q : Sequence), qs[j]? = some q → (Link.params hfec).IsSequence j q) ∧
      emitted.map FECBlock.packet = qs.flatMap Sequence.packets ∧
      qs.flatMap Sequence.msgs <+: msgs ∧
        (e.isFlushed = true → qs.flatMap Sequence.msgs = msgs) := by
  cases h with
  | plain hoff => exact absurd hoff hfec
  | @fec _ b qs h hb hitems =>
      have hmsgs : qs.flatMap Sequence.msgs = b.closed.flatMap Batch.items := by
        rw [List.flatMap_def, h.msgs, ← List.flatMap_def]
      refine ⟨qs, h.isSequence, FECBlock.map_packet_of_sentAs h.emitted, ?_, fun hflushed ↦ ?_⟩
      · rw [hmsgs, ← hitems]
        exact List.prefix_append _ _
      · have hnil : b.pending = [] := by
          have hin := List.isEmpty_iff.mp hflushed
          rw [h.pending] at hin
          simpa using congrArg List.length hin
        rw [hmsgs, ← hitems, Batches.items, hnil, List.append_nil]

/-- The packets that are left when FEC blocks are withheld are decoded to the messages, but for
those that wait to be flushed; where the number of blocks is 0, to some of them. -/
theorem decoded_withheld {L : Losses} (hL : L.frames = false) (h : Channel l e emitted msgs)
    (hkept : Drops L.packet (emitted.map FECBlock.packet) kept) :
    ∃ outs d, ∃ done : List (List UInt8), Run.run FECDecoder.deliver {} kept = .ok (outs, d) ∧
      payloads outs = done.map some ∧ done.Sublist msgs ∧
      (u8 l.nblocks ≠ 0 → done <+: msgs ∧ (e.isFlushed = true → done = msgs)) := by
  by_cases hoff : l.FecOff
  · by_cases hblocks : u8 l.nblocks = 0
    · obtain ⟨outs, d, done, hrun, hpay, hdone⟩ := h.decoded_plain hoff hkept.sublist
      exact ⟨outs, d, done, hrun, hpay, hdone, fun hne ↦ absurd hblocks hne⟩
    · -- every block is a data block, and none is withheld
      have hall : kept = emitted.map FECBlock.packet := by
        refine hkept.eq_of_forall_not fun pkt hpkt ↦ ?_
        obtain ⟨b, hb, rfl⟩ := List.mem_map.mp hpkt
        cases h with
        | fec hfec => exact absurd hoff hfec
        | plain _ h _ hfit =>
            have hdata : b.isDataBlock ∧ 3 ≤ b.packet.length := by
              refine h.emitted.forall_mem (p := fun b ↦ b.isDataBlock ∧ 3 ≤ b.packet.length) ?_ b hb
              intro b msg hmsg hplain
              refine ⟨hplain.isDataBlock_iff.mpr hblocks, ?_⟩
              rw [hplain.packet (hfit msg hmsg)]
              exact le_trans (by decide) b.header_le
            exact Losses.not_packet hL hdata.1 hdata.2
      subst hall
      obtain ⟨outs, d, done, hrun, hpay, hpre, hdone⟩ := h.decoded
      exact ⟨outs, d, done, hrun, hpay, hpre.sublist, fun _ ↦ ⟨hpre, hdone⟩⟩
  · obtain ⟨qs, hseq, hemitted, hpre, hdone⟩ := h.exists_sequences hoff
    rw [hemitted] at hkept
    obtain ⟨rs, rfl, rfl, hrs⟩ := Sequence.exists_receptions hkept
    have hdata : ∀ r ∈ rs, ∀ k < r.seq.nBlocks, k ∈ r.got := by
      intro r hr k hk
      have hlt : k < r.seq.nPackets := Nat.lt_add_right _ hk
      refine hrs r hr k hlt ?_
      rw [← r.seq.packet_block]
      refine Losses.not_packet hL ((Sequence.isDataBlock_block hlt).mpr hk) ?_
      rw [r.seq.packet_block, Sequence.length_packet]
      omega
    obtain ⟨outs, d, hrun, hpay⟩ := run_deliver_receptions (P := Link.params hoff) rs (by
      intro j r hr
      exact hseq j r.seq (by rw [List.getElem?_map, hr, Option.map_some])) fun r hr ↦
        Reception.all_data (hdata r hr)
    rw [List.flatMap_map] at hpre hdone
    exact ⟨outs, d, _, hrun, hpay, hpre.sublist, fun _ ↦ ⟨hpre, hdone⟩⟩

end Channel

/-! ## The threads get through -/

/-- Whatever is left of the packets of an encoder, it is decoded and passed on. -/
def Link.Decodes (l : Link) (L : Losses) : Prop :=
  ∀ (e : FECEncoder) (emitted : List FECBlock) (msgs kept : List (List UInt8)),
    Channel l e emitted msgs → (∀ m ∈ msgs, m ≠ []) →
    Drops L.packet (emitted.map FECBlock.packet) kept →
    ∃ outs d ms, Run.run FECDecoder.deliver {} kept = .ok (outs, d) ∧ finished outs.flatten = .ok ms

theorem finished_payloads {outs : List (List (FECBlock × ℕ))} {ms : List (List UInt8)}
    (h : payloads outs = ms.map some) (hne : ∀ m ∈ ms, m ≠ []) : finished outs.flatten = .ok ms :=
  finished_eq h hne

/-- Links without FEC decode whatever is left. -/
theorem Link.FecOff.decodes {l : Link} (hoff : l.FecOff) (L : Losses) : l.Decodes L := by
  intro e emitted msgs kept h hne hkept
  obtain ⟨outs, d, done, hrun, hpay, hdone⟩ := h.decoded_plain hoff hkept.sublist
  exact ⟨outs, d, done, hrun, finished_payloads hpay fun m hm ↦ hne m (hdone.subset hm)⟩

/-- All links decode what is left when FEC blocks are withheld. -/
theorem Link.decodes_withheld (l : Link) {L : Losses} (hL : L.frames = false) : l.Decodes L := by
  intro e emitted msgs kept h hne hkept
  obtain ⟨outs, d, done, hrun, hpay, hdone, -⟩ := h.decoded_withheld hL hkept
  exact ⟨outs, d, done, hrun, finished_payloads hpay fun m hm ↦ hne m (hdone.subset hm)⟩

theorem finished_append_eq_ok {out out' : List (FECBlock × ℕ)} {ms : List (List UInt8)} :
    finished (out ++ out') = .ok ms ↔
      ∃ ms₁ ms₂, finished out = .ok ms₁ ∧ finished out' = .ok ms₂ ∧ ms = ms₁ ++ ms₂ := by
  simp only [finished, List.filter_append, List.mapM_append]
  constructor
  · intro h
    obtain ⟨ms₁, h₁, h⟩ := bind_eq_ok.mp h
    obtain ⟨ms₂, h₂, h⟩ := bind_eq_ok.mp h
    exact ⟨ms₁, ms₂, h₁, h₂, (Except.ok.inj h).symm⟩
  · rintro ⟨ms₁, ms₂, h₁, h₂, rfl⟩
    rw [h₁, ok_bind, h₂, ok_bind]
    rfl

namespace LinkView.Pipe

variable {L : Losses} {l : Link} {reads written taken consumed : List (List UInt8)} {v : LinkView}
  {pending : List (FECBlock × ℕ)}

/-- The next message goes into the encoder. -/
theorem handle_ok (h : v.Pipe L l reads written taken consumed pending)
    (hfit : ∀ m ∈ reads, m.length + 2 ≤ l.blocksize) (msg : List UInt8) (hmsg : msg ∈ v.queued) :
    ∃ e', v.enc.handle msg = .ok e' := by
  obtain ⟨emitted, outs, passed, h⟩ := h
  have hchannel := channel h.encoded
  rw [FECEncoder.handle]
  by_cases hempty : msg = []
  · rw [if_pos hempty]
    obtain ⟨e', hflush, -⟩ := hchannel.flush
    exact ⟨e', hflush⟩
  · rw [if_neg hempty]
    have hmem : msg ∈ (taken ++ v.queued).filter (· ≠ []) :=
      List.mem_filter.mpr ⟨List.mem_append_right _ hmsg, by simpa using hempty⟩
    obtain ⟨e', hpush, -⟩ := hchannel.push (hfit msg (h.reads.sublist.subset hmem))
    exact ⟨e', hpush⟩

/-- The next packet goes into the decoder. -/
theorem deliver_ok (h : v.Pipe L l reads written taken consumed pending) (hdec : l.Decodes L)
    (pkt : List UInt8) {rest : List (List UInt8)} (hflight : v.flight = pkt :: rest) :
    ∃ r, v.dec.deliver pkt = .ok r := by
  obtain ⟨emitted, outs, passed, h⟩ := h
  obtain ⟨outs', d', ms, hrun, -⟩ := hdec _ _ _ _ (channel h.encoded) (by simp) h.sent
  rw [hflight] at hrun
  obtain ⟨outs₁, d₁, outs₂, hconsumed, hrest, -⟩ := Run.run_append_eq_ok.mp hrun
  obtain ⟨-, rfl⟩ := Prod.mk.inj (Except.ok.inj (hconsumed.symm.trans h.decoded))
  obtain ⟨out, d₂, -, hdeliver, -, -⟩ := Run.run_cons_eq_ok.mp hrest
  exact ⟨(out, d₂), hdeliver⟩

/-- The next block of the decoder is passed on. -/
theorem payload_ok {b : FECBlock × ℕ} (h : v.Pipe L l reads written taken consumed (b :: pending))
    (hdec : l.Decodes L) (hlength : 0 < b.1.length) : ∃ pkt, b.1.payload = some pkt := by
  obtain ⟨emitted, outs, passed, h⟩ := h
  obtain ⟨done, houts, -⟩ := h.finished
  obtain ⟨outs', d', ms, hrun, hms⟩ := hdec _ _ _ _ (channel h.encoded) (by simp) h.sent
  obtain ⟨outs₁, d₁, outs₂, hconsumed, -, rfl⟩ := Run.run_append_eq_ok.mp hrun
  obtain ⟨rfl, -⟩ := Prod.mk.inj (Except.ok.inj (hconsumed.symm.trans h.decoded))
  rw [List.flatten_append, houts, List.append_assoc] at hms
  obtain ⟨-, ms₂, -, hms₂, -⟩ := finished_append_eq_ok.mp hms
  obtain ⟨pkt, -, hpkt, -, -⟩ := finished_cons_of_pos hlength hms₂
  exact ⟨pkt, hpkt⟩

end LinkView.Pipe

namespace Bridge.LossyInv

variable {b : BridgeConfig} {L : Losses} {l : Links} {reads : List (List UInt8)}
  {took got : ℕ → List (List UInt8)} {written pkts : List (ℕ × List UInt8)} {s s' : BridgeState}

theorem flush_ok (h : LossyInv b L reads took got written pkts s)
    (hl : l.Configured b.blocksize b.links) (ipPort : ℕ) :
    ∃ s', (b.bridge l).flush s ipPort = .ok s' := by
  rw [Bridge.flush]
  cases hfind : SortedMap.find ipPort (b.bridge l).portMsgLut with
  | none => exact ⟨s, rfl⟩
  | some proto =>
      obtain ⟨i, g, hg, -, rfl : proto = _⟩ := hl.mem_lut _ (SortedMap.mem_of_find hfind)
      obtain ⟨e, d, hlink⟩ := h.link i g hg
      have hread : readAt .index s.encoders (g.prototype b.blocksize (UInt8.ofNat i) i).enc =
          (.ok e : Except Fault FECEncoder) := readAt_eq_ok.mpr hlink.encoder
      simp only [hread, ok_bind]
      split
      · exact ⟨_, rfl⟩
      · exact ⟨_, rfl⟩

theorem take_ok (h : LossyInv b L reads took got written pkts s)
    (hfit : ∀ m ∈ reads, m.length + 2 ≤ b.blocksize) : ∃ s', Bridge.take s = .ok s' := by
  rw [Bridge.take]
  cases hsending : s.sending with
  | some m => exact ⟨s, rfl⟩
  | none =>
      cases hqueue : s.outqueue.queue with
      | nil =>
          simp only [SharedQueue.tryPop, hqueue]
          exact ⟨s, rfl⟩
      | cons m rest =>
          obtain ⟨g, hg⟩ := Bridge.Inv.exists_section (h.queued m (hqueue ▸ List.mem_cons_self)).1
          obtain ⟨e, d, hlink⟩ := h.link m.enc g hg
          have hout : e.outBlocks = [] := by
            refine hlink.sending ?_
            rw [hsending]
            exact Option.some_ne_none _ ∘ Eq.symm
          have hdrain : e.drain = e := by
            rw [FECEncoder.drain, ← hout]
          obtain ⟨e', hhandle⟩ := hlink.pipe.handle_ok
            (fun m hm ↦ hfit m (List.mem_of_mem_filter hm)) m.msg (by
              rw [BridgeState.view, hqueue, onLink_cons_self rfl]
              exact List.mem_cons_self)
          rw [BridgeState.view, hdrain] at hhandle
          simp only [SharedQueue.tryPop, hqueue, readAt_eq_ok.mpr hlink.encoder, ok_bind, hhandle]
          exact ⟨_, rfl⟩

theorem transmit_ok (h : LossyInv b L reads took got written pkts s) (pad2 now : UInt8) :
    ∃ s', (b.bridge l).transmit s pad2 now = .ok s' := by
  rw [Bridge.transmit]
  cases hsending : s.sending with
  | none => exact ⟨s, rfl⟩
  | some m =>
      obtain ⟨g, hg⟩ := Bridge.Inv.exists_section (h.sending m hsending).1
      obtain ⟨e, d, hlink⟩ := h.link m.enc g hg
      simp only [readAt_eq_ok.mpr hlink.encoder, ok_bind]
      cases hout : e.outBlocks with
      | nil =>
          rw [FECEncoder.getBlock, hout]
          exact ⟨_, rfl⟩
      | cons block rest =>
          obtain ⟨-, hlen⟩ := hlink.fits block (hout ▸ List.mem_cons_self)
          have hsend := Bridge.Inv.send_block (List.mem_of_getElem? hg) hlen pad2 now m
          rw [FECEncoder.getBlock, hout]
          simp only
          split
          · exact ⟨_, rfl⟩
          · simp only [BridgeConfig.bridge, hsend, ok_bind]
            exact ⟨_, rfl⟩

theorem receive_ok (h : LossyInv b L reads took got written pkts s) {rt fcs : List UInt8}
    {curTime : ℕ} (hallows : L.Allows s (.thread (.receive rt fcs curTime))) :
    ∃ s', (b.bridge l).receive s rt fcs curTime = .ok s' := by
  obtain ⟨-, hrt, hfcs, hlen⟩ := hallows
  rw [Bridge.receive]
  cases hair : s.air with
  | nil => exact ⟨s, rfl⟩
  | cons frame air =>
      have hframes := h.air
      rw [hair] at hframes
      obtain ⟨p, pkts, ⟨now, type, rfl⟩, -, rfl⟩ := List.forall₂_cons_left_iff.mp hframes
      have hlt := (h.packets p List.mem_cons_self).1.trans_le BridgeConfig.links_length_le
      obtain ⟨hfilter, -, m, hmsg, -⟩ :=
        RawReceiveSocket.receive_frame b.socket.ground now type curTime
          (by rwa [UInt8.toNat_ofNat_of_lt' (hlt.trans (by decide))]) hrt hfcs
          (List.append_assoc rt _ fcs) (hlen _ (by rw [hair]; rfl))
      simp only [BridgeConfig.bridge, if_pos hfilter, hmsg, ok_bind]
      split
      · exact ⟨_, rfl⟩
      · exact ⟨_, rfl⟩

theorem decode_ok (h : LossyInv b L reads took got written pkts s)
    (hdec : ∀ g (hg : g ∈ b.links), (b.link g hg).Decodes L) : ∃ s', Bridge.decode s = .ok s' := by
  rw [Bridge.decode]
  cases hdecoding : s.decoding with
  | some i => exact ⟨s, rfl⟩
  | none =>
      cases hqueue : s.inqueue.queue with
      | nil =>
          simp only [SharedQueue.tryPop, hqueue]
          exact ⟨s, rfl⟩
      | cons m rest =>
          have hlt := h.inqueue m (hqueue ▸ List.mem_cons_self)
          obtain ⟨g, hg⟩ := Bridge.Inv.exists_section hlt
          obtain ⟨e, d, hlink⟩ := h.link m.port g hg
          have hout : d.outBlocks = [] := by
            refine hlink.decoding ?_
            rw [hdecoding]
            exact Option.some_ne_none _ ∘ Eq.symm
          have hdrain : d.drain = d := by
            rw [FECDecoder.drain, ← hout]
          obtain ⟨r, hdeliver⟩ := hlink.pipe.deliver_ok (hdec g _) m.data (by
            rw [BridgeState.view, hqueue, onLink_cons_self rfl, List.cons_append])
          rw [BridgeState.view, hdrain, FECDecoder.deliver] at hdeliver
          obtain ⟨d', hadd, -⟩ := bind_eq_ok.mp hdeliver
          simp only [SharedQueue.tryPop, hqueue, decoderIdx_of_lt hlt,
            readAt_eq_ok.mpr hlink.decoder, ok_bind, hadd]
          exact ⟨_, rfl⟩

theorem finish_ok (h : LossyInv b L reads took got written pkts s)
    (hdec : ∀ g (hg : g ∈ b.links), (b.link g hg).Decodes L) : ∃ s', Bridge.finish s = .ok s' := by
  rw [Bridge.finish]
  cases hdecoding : s.decoding with
  | none => exact ⟨s, rfl⟩
  | some i =>
      obtain ⟨g, hg⟩ := Bridge.Inv.exists_section (h.decoding i hdecoding)
      obtain ⟨e, d, hlink⟩ := h.link i g hg
      simp only [readAt_eq_ok.mpr hlink.decoder, ok_bind]
      cases hout : d.outBlocks with
      | nil =>
          rw [FECDecoder.getBlock, hout]
          exact ⟨_, rfl⟩
      | cons block rest =>
          have hpipe := hlink.pipe
          rw [hout] at hpipe
          rw [FECDecoder.getBlock, hout]
          simp only
          split
          case isTrue hlength =>
            obtain ⟨pkt, hpkt⟩ := hpipe.payload_ok (hdec g _) hlength
            simp only [hpkt]
            exact ⟨_, rfl⟩
          case isFalse => exact ⟨_, rfl⟩

/-- No step stops the threads. -/
theorem step_ok (h : LossyInv b L reads took got written pkts s)
    (hl : l.Configured b.blocksize b.links) (hfit : ∀ m ∈ reads, m.length + 2 ≤ b.blocksize)
    (hdec : ∀ g (hg : g ∈ b.links), (b.link g hg).Decodes L) {op : LossyOp}
    (hallows : L.Allows s op) :
    ∃ out s', (b.bridge l).lossyStep s op = .ok (out, s') := by
  have silent : ∀ {x : Except Fault BridgeState}, (∃ s', x = .ok s') → ∃ out s',
      (do .ok (none, ← x) : Except Fault (Option (ℕ × List UInt8) × BridgeState)) =
        .ok (out, s') := by
    rintro x ⟨s', rfl⟩
    exact ⟨none, s', rfl⟩
  cases op with
  | lose => exact ⟨_, _, rfl⟩
  | thread op =>
      cases op with
      | read pkt hne => exact ⟨_, _, rfl⟩
      | flush ipPort => exact silent (h.flush_ok hl ipPort)
      | take => exact silent (h.take_ok hfit)
      | transmit pad2 now => exact silent (h.transmit_ok pad2 now)
      | receive rt fcs curTime => exact silent (h.receive_ok hallows)
      | decode => exact silent (h.decode_ok hdec)
      | finish => exact silent (h.finish_ok hdec)
      | write => exact ⟨_, _, rfl⟩

end Bridge.LossyInv

/-! ## Runs -/

namespace LinkView.Pipe

variable {L : Losses} {l : Link} {reads written taken consumed : List (List UInt8)} {v : LinkView}
  {pending : List (FECBlock × ℕ)}

/-- What was passed on, and what is still to be. -/
theorem passed_append {emitted : List (List FECBlock)} {outs : List (List (FECBlock × ℕ))}
    {passed done : List (List UInt8)}
    (h : Pipeline L l reads written v pending taken emitted consumed outs passed)
    (hpay : payloads outs = done.map some) (hdone : done.Sublist (taken.filter (· ≠ []))) :
    ∃ rest, finished pending = .ok rest ∧ done = passed ++ rest := by
  obtain ⟨blocks, houts, hpassed⟩ := h.finished
  have hfinished : finished outs.flatten = .ok done := finished_payloads hpay fun m hm ↦ by
    simpa using (List.mem_filter.mp (hdone.subset hm)).2
  rw [houts] at hfinished
  obtain ⟨ms₁, rest, hms₁, hrest, rfl⟩ := finished_append_eq_ok.mp hfinished
  obtain rfl := Except.ok.inj (hpassed.symm.trans hms₁)
  exact ⟨rest, hrest, rfl⟩

/-- Without FEC, some of what was read is written. -/
theorem sublist_of_fecOff (h : v.Pipe L l reads written taken consumed pending) (hoff : l.FecOff) :
    written.Sublist reads := by
  obtain ⟨emitted, outs, passed, h⟩ := h
  obtain ⟨outs', d, done, hrun, hpay, hdone⟩ := (channel h.encoded).decoded_plain hoff
    ((List.sublist_append_left _ _).trans h.sent.sublist)
  obtain ⟨rfl, -⟩ := Prod.mk.inj (Except.ok.inj (h.decoded.symm.trans hrun))
  obtain ⟨rest, -, rfl⟩ := passed_append h hpay hdone
  calc written.Sublist (written ++ v.out) := List.sublist_append_left _ _
    List.Sublist _ passed := h.written.sublist
    List.Sublist _ (passed ++ rest) := List.sublist_append_left _ _
    List.Sublist _ (taken.filter (· ≠ [])) := hdone
    List.Sublist _ ((taken ++ v.queued).filter (· ≠ [])) := by
      rw [List.filter_append]
      exact List.sublist_append_left _ _
    List.Sublist _ reads := h.reads.sublist

/-- A link on which nothing is left on the way. -/
structure Still (v : LinkView) (pending : List (FECBlock × ℕ)) : Prop where
  queued : v.queued = []
  flushed : v.enc.isFlushed = true
  flight : v.flight = []
  pending : pending = []
  out : v.out = []

theorem eq_of_not_lost {l₁ l₂ : List (List UInt8)} {c : Bool} (h : Drops (fun _ ↦ c) l₁ l₂)
    (hc : c = false) : l₂ = l₁ := h.eq_of_forall_not fun _ _ ↦ by simp [hc]

/-- When FEC blocks are withheld and nothing else is lost, what is written is the beginning of what
was read, and all of it in the end. -/
theorem prefix_of_withheld (h : v.Pipe L l reads written taken consumed pending)
    (hreads : L.reads = false) (hframes : L.frames = false) (houtputs : L.outputs = false)
    (hblocks : u8 l.nblocks ≠ 0) :
    written <+: reads ∧ (Still v pending → written = reads) := by
  obtain ⟨emitted, outs, passed, h⟩ := h
  have hpassed : written ++ v.out = passed := eq_of_not_lost h.written houtputs
  have htaken : (taken ++ v.queued).filter (· ≠ []) = reads := eq_of_not_lost h.reads hreads
  obtain ⟨outs', d, done, hrun, hpay, hdone, hall⟩ :=
    (channel h.encoded).decoded_withheld hframes h.sent
  obtain ⟨hpre, hflushed⟩ := hall hblocks
  -- the decoder is in the middle of this run
  obtain ⟨outs₁, d₁, outs₂, hconsumed, hrest, rfl⟩ := Run.run_append_eq_ok.mp hrun
  obtain ⟨rfl, -⟩ := Prod.mk.inj (Except.ok.inj (hconsumed.symm.trans h.decoded))
  rw [payloads_append] at hpay
  obtain ⟨done₁, done₂, rfl, hpay₁, hpay₂⟩ := List.map_eq_append_iff.mp hpay.symm
  obtain ⟨rest, hpending, rfl⟩ :=
    passed_append h hpay₁.symm ((List.sublist_append_left _ _).trans hdone)
  rw [List.filter_append] at htaken
  constructor
  · rw [← hpassed, List.append_assoc, List.append_assoc] at hpre
    exact (List.prefix_append _ _).trans (hpre.trans (htaken ▸ List.prefix_append _ _))
  · rintro ⟨hqueued, hflush, hflight, rfl, hout⟩
    obtain rfl : rest = [] := (Except.ok.inj hpending).symm
    obtain rfl : done₂ = [] := by
      rw [hflight] at hrest
      obtain ⟨rfl, -⟩ := Prod.mk.inj (Except.ok.inj hrest)
      exact List.map_eq_nil_iff.mp hpay₂
    have heq := hflushed hflush
    rw [List.append_nil, List.append_nil, ← hpassed, hout, List.append_nil] at heq
    rw [← htaken, hqueued, List.filter_nil, List.append_nil, heq]

/-- When frames are lost and nothing else, the packets that arrive are those of a loss pattern of
the sequences that carry what was read, and everything is written if each of them keeps enough. -/
theorem exists_receptions_of_still (h : v.Pipe L l reads written taken consumed pending)
    (hreads : L.reads = false) (houtputs : L.outputs = false) (hfec : ¬l.FecOff)
    (hstill : Still v pending) :
    ∃ rs : List Reception,
      (∀ (j : ℕ) (r : Reception), rs[j]? = some r → (Link.params hfec).IsSequence j r.seq) ∧
      (rs.flatMap fun r ↦ r.seq.msgs) = reads ∧ rs.flatMap Reception.packets = consumed ∧
      ((∀ r ∈ rs, r.KeepsLongest ∧ r.seq.nBlocks ≤ r.got.length) → written = reads) := by
  obtain ⟨emitted, outs, passed, h⟩ := h
  obtain ⟨hqueued, hflush, hflight, rfl, hout⟩ := hstill
  have hpassed : written ++ v.out = passed := eq_of_not_lost h.written houtputs
  have htaken : (taken ++ v.queued).filter (· ≠ []) = reads := eq_of_not_lost h.reads hreads
  obtain ⟨qs, hseq, hemitted, -, hmsgs⟩ := (channel h.encoded).exists_sequences hfec
  have hsent := h.sent
  rw [hemitted, hflight, List.append_nil] at hsent
  obtain ⟨rs, rfl, hpackets, -⟩ := Sequence.exists_receptions hsent
  have hrs : ∀ (j : ℕ) (r : Reception), rs[j]? = some r → (Link.params hfec).IsSequence j r.seq :=
    fun j r hr ↦ hseq j r.seq (by rw [List.getElem?_map, hr, Option.map_some])
  rw [hqueued, List.append_nil] at htaken
  rw [hout, List.append_nil] at hpassed
  have hread : (rs.flatMap fun r ↦ r.seq.msgs) = reads := by
    rw [← htaken, ← hmsgs hflush, List.flatMap_map]
  refine ⟨rs, hrs, hread, hpackets, fun hgood ↦ ?_⟩
  obtain ⟨outs', d, hrun, hpay⟩ := run_deliver_receptions rs hrs hgood
  rw [hpackets] at hrun
  obtain ⟨rfl, -⟩ := Prod.mk.inj (Except.ok.inj (h.decoded.symm.trans hrun))
  rw [hread] at hpay
  obtain ⟨rest, hrest, hdone⟩ := passed_append h hpay (by rw [htaken])
  obtain rfl : rest = [] := (Except.ok.inj hrest).symm
  rw [hdone, List.append_nil, hpassed]

end LinkView.Pipe

namespace Bridge.LossyInv

variable {b : BridgeConfig} {L : Losses} {reads : List (List UInt8)}
  {took got : ℕ → List (List UInt8)} {written pkts : List (ℕ × List UInt8)} {s : BridgeState}

/-- When the threads have nothing left to do, no link has. -/
theorem still (h : LossyInv b L reads took got written pkts s) (hs : Drained s) {i : ℕ} {l : Link}
    {reads written taken consumed : List (List UInt8)} {e : FECEncoder} {d : FECDecoder}
    (hlink : s.PipeInv L l reads written taken consumed pkts i e d) :
    LinkView.Pipe.Still (s.view pkts i e d []) d.outBlocks := by
  have hpkts : pkts = [] := by
    have hair := h.air
    rw [hs.air] at hair
    exact List.forall₂_nil_left_iff.mp hair
  have hout : e.outBlocks = [] := hlink.sending (by simp [hs.sending])
  refine ⟨?_, hs.encoders e (List.mem_of_getElem? hlink.encoder), ?_,
    hlink.decoding (by simp [hs.decoding]), ?_⟩
  · rw [BridgeState.view, hs.outqueue, onLink_nil]
  · rw [BridgeState.view, hs.inqueue, hpkts, hout, onLink_nil, onLink_nil, List.map_nil]
    rfl
  · rw [BridgeState.view, hs.sendQueue, onLink_nil]
    rfl

end Bridge.LossyInv

namespace BridgeConfig

variable (b : BridgeConfig)

/-- The threads get through when every link can decode what is left of its packets. -/
theorem lossyRun_ok {L : Losses} {ops : List Bridge.LossyOp} (hallows : b.Allows L ops)
    (hfit : ∀ pkt ∈ Bridge.lossyReads ops, pkt.length + 2 ≤ b.blocksize)
    (hdec : ∀ g (hg : g ∈ b.links), (b.link g hg).Decodes L) :
    ∃ outs s, b.lossyRun ops = .ok (outs, s) := by
  obtain ⟨l, hconf, hl⟩ := b.exists_configured
  obtain ⟨outs, s, hrun, -⟩ := Run.run_inv_of_along (hallows l hconf)
    (fun pre _ s ↦ ∃ took got written pkts,
      Bridge.LossyInv b L (Bridge.lossyReads pre) took got written pkts s)
    ⟨_, _, _, _, Bridge.LossyInv.init hl⟩ (by
      rintro pre op outs s ⟨post, rfl⟩ ⟨took, got, written, pkts, h⟩ hop
      have hfit' : ∀ m ∈ Bridge.lossyReads pre, m.length + 2 ≤ b.blocksize := fun m hm ↦
        hfit m (by rw [Bridge.lossyReads_append]; exact List.mem_append_left _ hm)
      obtain ⟨out, s', hstep⟩ := h.step_ok hl hfit' hdec hop
      obtain ⟨pkts', h'⟩ := h.step hl hop hstep
      rw [← Bridge.lossyReads_append] at h'
      exact ⟨out, s', hstep, _, _, _, pkts', h'⟩)
  refine ⟨outs, s, ?_⟩
  rw [lossyRun, hconf]
  exact hrun

/-- Links without FEC: whatever is lost, what is written is some of what was read, in order and
once; and if there are only such links, nothing stops the threads. -/
theorem plain_links_in_order (ops : List Bridge.LossyOp)
    (hallows : b.Allows ⟨true, true, true⟩ ops) :
    (∀ outs s, b.lossyRun ops = .ok (outs, s) → ∀ (i : ℕ) (g : Section), b.links[i]? = some g →
      g.nblocks = 0 ∨ g.nfecBlocks = 0 →
      (Bridge.written i outs).Sublist (b.readsOf g (Bridge.lossyReads ops))) ∧
    ((∀ g ∈ b.links, g.nblocks = 0 ∨ g.nfecBlocks = 0) →
      (∀ pkt ∈ Bridge.lossyReads ops, pkt.length + 2 ≤ b.blocksize) →
      ∃ outs s, b.lossyRun ops = .ok (outs, s)) := by
  constructor
  · intro outs s hrun i g hg hoff
    obtain ⟨pkts, h⟩ := lossyInv_of_run hallows hrun
    obtain ⟨e, d, hlink⟩ := h.link i g hg
    exact hlink.pipe.sublist_of_fecOff hoff
  · intro hoff hfit
    exact b.lossyRun_ok hallows hfit fun g hg ↦
      Link.FecOff.decodes (l := b.link g hg) (hoff g hg) _

/-- The first link of two loses its frame, and goes on without it. -/
theorem plain_links_in_order_twoLinks : ∃ outs s, twoLinks.lossyRun lossyTwoLinks = .ok (outs, s) ∧
    (Bridge.written 0 outs).Sublist [[4, 5, 6]] := by
  have hok : (twoLinks.lossyRun lossyTwoLinks).isOk = true := by decide +kernel
  cases hrun : twoLinks.lossyRun lossyTwoLinks with
  | error e =>
      rw [hrun] at hok
      cases hok
  | ok r =>
      exact ⟨r.1, r.2, rfl,
        (plain_links_in_order twoLinks lossyTwoLinks (by decide +kernel)).1 r.1 r.2
      hrun 0 _ rfl (.inl rfl)⟩

/-- FEC blocks that are withheld do no harm: if nothing else is lost, each link that numbers its
blocks has written the beginning of what was read, and all of it when nothing is left on the way. -/
theorem withheld_blocks_harmless (ops : List Bridge.LossyOp)
    (hallows : b.Allows ⟨false, false, false⟩ ops)
    (hfit : ∀ pkt ∈ Bridge.lossyReads ops, pkt.length + 2 ≤ b.blocksize) :
    ∃ outs s, b.lossyRun ops = .ok (outs, s) ∧ ∀ (i : ℕ) (g : Section), b.links[i]? = some g →
      u8 g.nblocks ≠ 0 →
      Bridge.written i outs <+: b.readsOf g (Bridge.lossyReads ops) ∧
      (Bridge.Drained s → Bridge.written i outs = b.readsOf g (Bridge.lossyReads ops)) := by
  obtain ⟨outs, s, hrun⟩ := b.lossyRun_ok hallows hfit fun g hg ↦ (b.link g hg).decodes_withheld rfl
  refine ⟨outs, s, hrun, fun i g hg hblocks ↦ ?_⟩
  obtain ⟨pkts, h⟩ := lossyInv_of_run hallows hrun
  obtain ⟨e, d, hlink⟩ := h.link i g hg
  obtain ⟨hpre, hdone⟩ := hlink.pipe.prefix_of_withheld rfl rfl rfl hblocks
  exact ⟨hpre, fun hs ↦ hdone (h.still hs hlink)⟩

/-- A link with two FEC blocks, and a queue for one message. -/
def slowLink : BridgeConfig where
  sections := [{ group := "link-a", blocks := 2, fec := 2 }]
  socket := { ground := true, mtu := 64 }
  maxQueueSize := 1

/-- When the first FEC block comes, the next message is waiting already. -/
def slowLinkRun : List Bridge.LossyOp :=
  ([.read [1] (by decide), .take, .transmit 0 0, .read [2] (by decide), .take,
    .read [3] (by decide), .transmit 0 0, .transmit 0 0, .transmit 0 0, .transmit 0 0,
    .transmit 0 0, .receive [0, 0, 8, 0, 0, 0, 0, 0] [0, 0, 0, 0] 0, .decode, .finish, .finish,
    .write, .receive [0, 0, 8, 0, 0, 0, 0, 0] [0, 0, 0, 0] 0, .decode, .finish, .finish, .write] :
      List Bridge.Op).map .thread

/-- Three frames are sent, and the two messages arrive. -/
theorem withheld_blocks_harmless_slowLink :
    ∃ outs s, slowLink.lossyRun slowLinkRun = .ok (outs, s) ∧
      s.air.length = 1 ∧ Bridge.written 0 outs = [[1], [2]] ∧
    Bridge.written 0 outs <+: [[1], [2], [3]] := by
  have hwritten : (slowLink.lossyRun slowLinkRun).toOption.all (fun r ↦
      r.2.air.length = 1 ∧ Bridge.written 0 r.1 = [[1], [2]]) = true := by decide +kernel
  obtain ⟨outs, s, hrun, h⟩ := withheld_blocks_harmless slowLink slowLinkRun (by decide +kernel)
    (by decide +kernel)
  rw [hrun] at hwritten
  obtain ⟨hair, hmsgs⟩ := of_decide_eq_true hwritten
  exact ⟨outs, s, hrun, hair, hmsgs, (h 0 _ rfl (by decide)).1⟩

/-- Frames that are lost do no harm as long as each sequence keeps a data packet with a longest
message and as many packets as it has messages. -/
theorem lost_frames_recovered (ops : List Bridge.LossyOp)
    (hallows : b.Allows ⟨false, true, false⟩ ops) {outs : List (Option (ℕ × List UInt8))}
    {s : BridgeState} (hrun : b.lossyRun ops = .ok (outs, s)) (hs : Bridge.Drained s) {i : ℕ}
    {g : Section} (hg : b.links[i]? = some g) (hfec : g.nblocks ≠ 0 ∧ g.nfecBlocks ≠ 0) :
    ∃ rs : List Reception,
      (∀ (j : ℕ) (r : Reception), rs[j]? = some r → r.seq.seqNum = j % 255 + 1 ∧
        r.seq.nBlocks ≤ g.nblocks ∧ r.seq.nFecBlocks = g.nfecBlocks ∧ r.seq.size ≤ b.blocksize) ∧
      (rs.flatMap fun r ↦ r.seq.msgs) = b.readsOf g (Bridge.lossyReads ops) ∧
      rs.flatMap Reception.packets = b.observed (Bridge.decodes i) ops ∧
      ((∀ r ∈ rs, r.KeepsLongest ∧ r.seq.nBlocks ≤ r.got.length) →
        Bridge.written i outs = b.readsOf g (Bridge.lossyReads ops)) := by
  obtain ⟨pkts, h⟩ := lossyInv_of_run hallows hrun
  obtain ⟨e, d, hlink⟩ := h.link i g hg
  have hon : ¬(b.link g (List.mem_of_getElem? hg)).FecOff := fun hoff ↦ hoff.elim hfec.1 hfec.2
  obtain ⟨rs, hseq, hmsgs, hpackets, hdone⟩ :=
    hlink.pipe.exists_receptions_of_still rfl rfl hon (h.still hs hlink)
  refine ⟨rs, fun j r hj ↦ ?_, hmsgs, hpackets, hdone⟩
  obtain ⟨hnum, hfecBlocks, hblocks, hsize⟩ := hseq j r hj
  refine ⟨hnum.trans ?_, hblocks, hfecBlocks, hsize⟩
  rw [FecParams.seqNumAt]
  exact congrArg (· % 255 + 1) (Nat.zero_add j)

/-- Two packets in a sequence; the frame of the second one is lost. -/
def lostFrameRun : List Bridge.LossyOp :=
  ([.read udpPacket udpPacket_ne_nil, .read udpPacket udpPacket_ne_nil, .take, .transmit 0 0, .take,
    .transmit 0 0, .transmit 0 0, .transmit 0 0, .transmit 0 0,
    .receive [0, 0, 8, 0, 0, 0, 0, 0] [0, 0, 0, 0] 0, .decode, .finish, .finish, .write] :
      List Bridge.Op).map .thread ++
  .lose :: ([.receive [0, 0, 8, 0, 0, 0, 0, 0] [0, 0, 0, 0] 0, .decode, .finish, .finish, .write] :
      List Bridge.Op).map .thread

/-- The packets that get through are of one sequence, a data packet and an FEC packet. -/
theorem receptions_lostFrameRun {rs : List Reception}
    (hmsgs : (rs.flatMap fun r ↦ r.seq.msgs) = [udpPacket, udpPacket])
    (htags : (rs.flatMap Reception.packets).map (·.take 3) = [[1, 0, 2], [1, 2, 2]]) :
    ∀ r ∈ rs, r.KeepsLongest ∧ r.seq.nBlocks ≤ r.got.length := by
  -- the sequence of the first packet has two messages, so there is no other
  obtain ⟨r, hr, k, hk, htag⟩ : ∃ r ∈ rs, ∃ k ∈ r.got, (r.seq.packet k).take 3 = [1, 0, 2] := by
    have hmem : [1, 0, 2] ∈ (rs.flatMap Reception.packets).map (·.take 3) := by simp [htags]
    obtain ⟨pkt, hpkt, htag⟩ := List.mem_map.mp hmem
    obtain ⟨r, hr, hpkt⟩ := List.mem_flatMap.mp hpkt
    obtain ⟨k, hk, rfl⟩ := List.mem_map.mp hpkt
    exact ⟨r, hr, k, hk, htag⟩
  obtain ⟨-, hkbyte, hnbyte⟩ : UInt8.ofNat r.seq.seqNum = 1 ∧ UInt8.ofNat k = 0 ∧
      UInt8.ofNat r.seq.nBlocks = 2 := by simpa [Sequence.packet, Sequence.tag] using htag
  have hblocks : r.seq.nBlocks = 2 := by
    have hlt : r.seq.nBlocks < 256 := r.seq.msgs_le.trans_lt (by decide)
    rw [← UInt8.toNat_ofNat_of_lt' hlt, hnbyte]
    rfl
  obtain ⟨pre, post, rfl⟩ := List.append_of_mem hr
  have hlength := congrArg List.length hmsgs
  have hnil (qs : List Reception) (h : (qs.flatMap fun r ↦ r.seq.msgs).length = 0) : qs = [] := by
    rw [List.length_eq_zero_iff, List.flatMap_eq_nil_iff] at h
    exact List.eq_nil_iff_forall_not_mem.mpr fun q hq ↦ q.seq.msgs_ne (h q hq)
  have htwo : r.seq.msgs.length = 2 := hblocks
  simp only [List.flatMap_append, List.flatMap_cons, List.length_append, htwo, List.length_cons,
    List.length_nil] at hlength
  obtain rfl := hnil pre (by omega)
  obtain rfl := hnil post (by omega)
  have hgot : r.got.length = 2 := by simpa [Reception.packets] using congrArg List.length htags
  have hboth : r.seq.msgs = [udpPacket, udpPacket] := by simpa using hmsgs
  have hzero : 0 ∈ r.got := by
    have hlt : k < 256 := by
      have := r.got_lt hk
      have := r.seq.nFecBlocks_le
      rw [Sequence.nPackets] at *
      omega
    obtain rfl : k = 0 := by
      rw [← UInt8.toNat_ofNat_of_lt' hlt, hkbyte]
      rfl
    exact hk
  rintro r' hr'
  obtain rfl : r' = r := by simpa using hr'
  refine ⟨⟨0, List.mem_filter.mpr ⟨hzero, by simp [hblocks]⟩, ?_⟩, by omega⟩
  rw [Sequence.msg, hboth]
  rfl

/-- The second packet is rebuilt. -/
theorem lost_frames_recovered_twoLinks : ∃ outs s, twoLinks.lossyRun lostFrameRun = .ok (outs, s) ∧
    Bridge.written 1 outs = [udpPacket, udpPacket] := by
  have hdrained : (twoLinks.lossyRun lostFrameRun).toOption.any (fun r ↦ Bridge.Drained r.2) =
      true := by
    decide +kernel
  have htags : (twoLinks.observed (Bridge.decodes 1) lostFrameRun).map (·.take 3) =
      [[1, 0, 2], [1, 2, 2]] := by decide +kernel
  obtain ⟨g, hg, hfec, hreads⟩ :
      ∃ g, twoLinks.links[1]? = some g ∧ (g.nblocks ≠ 0 ∧ g.nfecBlocks ≠ 0) ∧
        twoLinks.readsOf g (Bridge.lossyReads lostFrameRun) = [udpPacket, udpPacket] :=
    ⟨_, rfl, by decide, by decide +kernel⟩
  cases hrun : twoLinks.lossyRun lostFrameRun with
  | error e =>
      rw [hrun] at hdrained
      cases hdrained
  | ok r =>
      rw [hrun] at hdrained
      obtain ⟨rs, -, hmsgs, hpackets, hwritten⟩ := lost_frames_recovered twoLinks lostFrameRun
        (by decide +kernel) hrun (of_decide_eq_true hdrained) hg hfec
      rw [hreads] at hmsgs hwritten
      rw [← hpackets] at htags
      exact ⟨r.1, r.2, rfl, hwritten (receptions_lostFrameRun hmsgs htags)⟩

end BridgeConfig

end WfbBridge
