import Mathlib
import WfbBridge.Bridge.Link
import WfbBridge.Bridge.Threads
import WfbBridge.Decoder.Recovery

/-!
# One link end to end

The encoder of a link and a decoder that gets all its packets, once and in order.  A
`Channel` is an encoder that has been drained, with all the blocks it has emitted and all
the messages it has taken.  `LinkView` is what belongs to one link of the two bridges;
each thread changes it in one way, and `LinkView.Inv` says that nothing is lost in between.
-/

namespace WfbBridge

open Checked

/-- The whole of a sequence arrives. -/
def Sequence.whole (q : Sequence) : Reception := ⟨q, List.range q.nPackets, .refl _⟩

theorem Sequence.keepsLongest_whole (q : Sequence) : q.whole.KeepsLongest := by
  obtain ⟨m, hm, hlen⟩ := exists_longest q.msgs_ne
  obtain ⟨i, hi⟩ := List.mem_iff_getElem?.mp hm
  have hlt : i < q.nBlocks := (List.getElem?_eq_some_iff.mp hi).1
  refine ⟨i, ?_, ?_⟩
  · refine List.mem_filter.mpr ⟨List.mem_range.mpr (Nat.lt_add_right _ hlt), ?_⟩
    rw [decide_eq_true_eq]
    exact hlt
  · refine Eq.trans ?_ hlen
    exact congrArg List.length (Option.some.inj ((Sequence.msg_eq hlt).symm.trans hi))

/-- Without losses everything is output. -/
theorem run_deliver_packets {P : FecParams} {qs : List Sequence}
    (hseq : ∀ (j : ℕ) (q : Sequence), qs[j]? = some q → P.IsSequence j q) :
    ∃ outs d, Run.run FECDecoder.deliver {} (qs.flatMap Sequence.packets) = .ok (outs, d) ∧
      payloads outs = (qs.flatMap Sequence.msgs).map some := by
  have hwhole : ∀ (j : ℕ) (r : Reception), (qs.map Sequence.whole)[j]? = some r →
      P.IsSequence j r.seq := by
    intro j r hr
    rw [List.getElem?_map] at hr
    obtain ⟨q, hq, rfl⟩ := Option.map_eq_some_iff.mp hr
    exact hseq j q hq
  obtain ⟨outs, d, hrun, hall⟩ := run_receive_longest _ hwhole (by
    intro r hr
    obtain ⟨q, -, rfl⟩ := List.mem_map.mp hr
    exact q.keepsLongest_whole)
  have hpackets : qs.flatMap Sequence.packets =
      ((qs.map Sequence.whole).map Reception.packets).flatten := by
    rw [List.map_map, List.flatMap_def]
    rfl
  refine ⟨outs.flatten, d, ?_, ?_⟩
  · rw [hpackets]
    refine Run.run_flatten ?_
    rw [← Run.run_comap]
    exact hrun
  · rw [List.forall₂_map_left_iff] at hall
    clear hrun hpackets hwhole hseq
    induction hall with
    | nil => rfl
    | @cons q out qs outs hout _ ih =>
        rw [List.flatten_cons, payloads_append, ih, List.flatMap_cons, List.map_append,
          hout (by simp [Sequence.whole, Sequence.nPackets])]
        rfl

/-! ## Channels -/

/-- A drained encoder that has taken the messages `msgs` and emitted the blocks `emitted`. -/
inductive Channel (l : Link) (e : FECEncoder) (emitted : List FECBlock)
    (msgs : List (List UInt8)) : Prop
  | plain (hoff : l.FecOff) (h : e.Plain l emitted msgs) (hdrained : e.outBlocks = [])
      (hfit : ∀ m ∈ msgs, m.length + 2 ≤ l.blocksize)
  | fec (hfec : ¬l.FecOff) {b : Batches (List UInt8)} {qs : List Sequence}
      (h : e.Represents (Link.params hfec) b emitted qs) (hb : b.Bounded l.nblocks)
      (hitems : b.items = msgs) (hdrained : e.outBlocks = [])
      (hfit : ∀ m ∈ msgs, m.length + 2 ≤ l.blocksize)

/-- All blocks are taken out. -/
def FECEncoder.drain (e : FECEncoder) : FECEncoder := { e with outBlocks := [] }

namespace FECEncoder

variable {l : Link} {e : FECEncoder} {emitted : List FECBlock} {msgs : List (List UInt8)}
  {P : FecParams} {b : Batches (List UInt8)} {qs : List Sequence} {msg : List UInt8}

theorem Plain.drain (h : e.Plain l emitted msgs) : e.drain.Plain l emitted msgs :=
  ⟨h.numBlocks, h.numFecBlocks, h.maxBlockSize, h.inBlocks, h.emitted⟩

theorem Represents.drain (h : e.Represents P b emitted qs) : e.drain.Represents P b emitted qs :=
  ⟨⟨h.params.numBlocks, h.params.numFecBlocks, h.params.maxBlockSize⟩, h.seqNum, h.pending, h.msgs,
    h.isSequence, h.emitted⟩

/-- The encoder of a link with FEC at the start. -/
theorem Represents.init (hfec : ¬l.FecOff) : l.encoder.Represents (Link.params hfec) {} [] [] := by
  have hseq : l.encoder.seqNum = (Link.params hfec).seqNumAt 0 := by
    rw [FecParams.seqNumAt_zero]
    rfl
  exact ⟨⟨rfl, rfl, rfl⟩, hseq, rfl, rfl, by simp, .nil⟩

/-- A drained encoder takes a message and is drained again: first without FEC, then with it. -/
theorem Plain.push_drain (hoff : l.FecOff) (h : e.Plain l emitted msgs)
    (hdrained : e.outBlocks = []) (hmsg : msg.length + 2 ≤ l.blocksize) :
    ∃ e', e.push msg = .ok e' ∧ e'.drain.Plain l (emitted ++ e'.outBlocks) (msgs ++ [msg]) := by
  have hemitted : e.Plain l (emitted ++ e.outBlocks) msgs := by rwa [hdrained, List.append_nil]
  obtain ⟨e', hpush, h'⟩ := hemitted.push hoff hmsg
  exact ⟨e', hpush, h'.drain⟩

theorem Represents.push_drain (h : e.Represents P b emitted qs) (hdrained : e.outBlocks = [])
    (hb : b.Bounded P.numBlocks) (hfit : ∀ m ∈ b.items, m.length + 2 ≤ P.maxBlockSize)
    (hmsg : msg.length + 2 ≤ P.maxBlockSize) :
    ∃ e' qs', e.push msg = .ok e' ∧
      e'.drain.Represents P (b.push P.numBlocks msg) (emitted ++ e'.outBlocks) qs' := by
  have hemitted : e.Represents P b (emitted ++ e.outBlocks) qs := by rwa [hdrained, List.append_nil]
  obtain ⟨e', qs', hpush, h'⟩ :=
    hemitted.push hb (fun m hm ↦ hfit m (List.mem_append_right _ hm)) hmsg
  exact ⟨e', qs', hpush, h'.drain⟩

/-- A flush of a drained encoder. -/
theorem Plain.flush_drain (h : e.Plain l emitted msgs) (hdrained : e.outBlocks = []) :
    e.flush = .ok e ∧ e.drain.Plain l (emitted ++ e.outBlocks) msgs := by
  have hemitted : e.Plain l (emitted ++ e.outBlocks) msgs := by rwa [hdrained, List.append_nil]
  exact ⟨hemitted.flush, hemitted.drain⟩

theorem Represents.flush_drain (h : e.Represents P b emitted qs) (hdrained : e.outBlocks = [])
    (hb : b.Bounded P.numBlocks) (hfit : ∀ m ∈ b.items, m.length + 2 ≤ P.maxBlockSize) :
    ∃ e' qs', e.flush = .ok e' ∧ e'.drain.Represents P b.flush (emitted ++ e'.outBlocks) qs' := by
  have hemitted : e.Represents P b (emitted ++ e.outBlocks) qs := by rwa [hdrained, List.append_nil]
  obtain ⟨e', qs', hflush, h'⟩ := hemitted.flush hb fun m hm ↦ hfit m (List.mem_append_right _ hm)
  exact ⟨e', qs', hflush, h'.drain⟩

end FECEncoder

namespace Channel

variable {l : Link} {e : FECEncoder} {emitted : List FECBlock} {msgs : List (List UInt8)}

theorem init (l : Link) : Channel l l.encoder [] [] := by
  by_cases hoff : l.FecOff
  · exact .plain hoff .init rfl (by simp)
  · exact .fec hoff (.init hoff) (.empty (Link.params hoff).numBlocks_pos) rfl rfl (by simp)

theorem forall_fits (hfit : ∀ m ∈ msgs, m.length + 2 ≤ l.blocksize) {msg : List UInt8}
    (hmsg : msg.length + 2 ≤ l.blocksize) : ∀ m ∈ msgs ++ [msg], m.length + 2 ≤ l.blocksize := by
  intro m hm
  rcases List.mem_append.mp hm with hm | hm
  · exact hfit m hm
  · rwa [List.mem_singleton.mp hm]

/-- A message is taken. -/
theorem push (h : Channel l e emitted msgs) {msg : List UInt8}
    (hmsg : msg.length + 2 ≤ l.blocksize) :
    ∃ e', e.push msg = .ok e' ∧ Channel l e'.drain (emitted ++ e'.outBlocks) (msgs ++ [msg]) := by
  cases h with
  | plain hoff h hdrained hfit =>
      obtain ⟨e', hpush, h'⟩ := h.push_drain hoff hdrained hmsg
      exact ⟨e', hpush, .plain hoff h' rfl (forall_fits hfit hmsg)⟩
  | @fec hfec b qs h hb hitems hdrained hfit =>
      obtain ⟨e', qs', hpush, h'⟩ := h.push_drain hdrained hb (hitems ▸ hfit) hmsg
      refine ⟨e', hpush, .fec hfec h' (hb.push msg) ?_ rfl (forall_fits hfit hmsg)⟩
      rw [Batches.items_push, hitems]

/-- The channel is flushed. -/
theorem flush (h : Channel l e emitted msgs) :
    ∃ e', e.flush = .ok e' ∧ Channel l e'.drain (emitted ++ e'.outBlocks) msgs := by
  cases h with
  | plain hoff h hdrained hfit =>
      obtain ⟨hflush, h'⟩ := h.flush_drain hdrained
      exact ⟨e, hflush, .plain hoff h' rfl hfit⟩
  | @fec hfec b qs h hb hitems hdrained hfit =>
      obtain ⟨e', qs', hflush, h'⟩ := h.flush_drain hdrained hb (hitems ▸ hfit)
      refine ⟨e', hflush, .fec hfec h' hb.flush ?_ rfl hfit⟩
      rw [Batches.items_flush, hitems]

/-- The packets fit into a frame. -/
theorem packet_spec (h : Channel l e emitted msgs) :
    ∀ b ∈ emitted, b.packet ≠ [] ∧ b.pktLength ≤ l.blocksize + 4 := by
  cases h with
  | plain hoff h hdrained hfit =>
      refine h.emitted.forall_mem fun b msg hmsg hb ↦ ?_
      refine ⟨?_, (hb.spec (hfit msg hmsg)).2.1.le⟩
      rw [hb.packet (hfit msg hmsg)]
      exact List.ne_nil_of_length_pos ((by decide : 0 < fecOverhead).trans_le b.header_le)
  | @fec hfec b qs h hb hitems hdrained hfit =>
      refine h.emitted.forall_mem fun b pkt hpkt hb ↦ ?_
      obtain ⟨q, hq, hpkt⟩ := List.mem_flatMap.mp hpkt
      obtain ⟨k, -, rfl⟩ := List.mem_map.mp hpkt
      obtain ⟨j, hj⟩ := List.mem_iff_getElem?.mp hq
      have hsize : q.size ≤ l.blocksize := (h.isSequence j q hj).size_le
      rw [hb.packet, hb.pktLength, Sequence.length_packet]
      refine ⟨List.ne_nil_of_length_pos ?_, by omega⟩
      rw [Sequence.length_packet]
      omega

/-- A block without FEC is passed through. -/
theorem deliver_plain (hoff : l.FecOff) {b : FECBlock} {msg : List UInt8} (hb : l.PlainBlock b msg)
    (hmsg : msg.length + 2 ≤ l.blocksize) (d : FECDecoder) (hd : d.outBlocks = []) :
    ∃ i d', d.deliver b.packet = .ok ([(b, i)], d') ∧ d'.outBlocks = [] := by
  have hofPacket : FECBlock.ofPacket b.packet = .ok b := by
    obtain ⟨seqNum, rfl⟩ := hb
    exact FECEncoder.ofPacket_filledBlock 0 l.blocksize_le hmsg
  have hpass : b.header.nBlocks = 0 ∨ b.header.nFecBlocks = 0 := by
    obtain ⟨seqNum, rfl⟩ := hb
    refine hoff.imp (fun h ↦ ?_) fun h ↦ ?_
    · change (UInt8.ofNat l.nblocks).toNat = 0
      rw [h]
      rfl
    · change (UInt8.ofNat l.nfecBlocks).toNat = 0
      rw [h]
      rfl
  refine ⟨b.header.block, { (d.countPacket b.pktLength).passThrough b with outBlocks := [] }, ?_,
    rfl⟩
  rw [FECDecoder.deliver_off hofPacket hpass, hd, List.nil_append]

/-- The blocks of a link without FEC are passed through, one by one. -/
theorem run_deliver_plain (hoff : l.FecOff) (h : List.Forall₂ l.PlainBlock emitted msgs)
    (hfit : ∀ m ∈ msgs, m.length + 2 ≤ l.blocksize) (d : FECDecoder) (hd : d.outBlocks = []) :
    ∃ outs d', Run.run FECDecoder.deliver d (emitted.map FECBlock.packet) = .ok (outs, d') ∧
      payloads outs = msgs.map some := by
  induction h generalizing d with
  | nil => exact ⟨[], d, rfl, rfl⟩
  | @cons b msg emitted msgs hb _ ih =>
      have hmsg := hfit msg List.mem_cons_self
      obtain ⟨i, d₁, hdeliver, hd₁⟩ := deliver_plain hoff hb hmsg d hd
      obtain ⟨outs, d', hrun, hpay⟩ := ih (fun m hm ↦ hfit m (List.mem_cons_of_mem _ hm)) d₁ hd₁
      refine ⟨_, d', Run.run_cons_eq_ok.mpr ⟨_, d₁, outs, hdeliver, hrun, rfl⟩, ?_⟩
      rw [← List.singleton_append, payloads_append, hpay, List.map_cons]
      have hone : payloads [[(b, i)]] = [some msg] := congrArg (fun p ↦ [p]) (hb.spec hmsg).1
      rw [hone, List.singleton_append]

/-- A decoder that gets all packets outputs the messages, but for those that wait to be flushed. -/
theorem decoded (h : Channel l e emitted msgs) :
    ∃ outs d done, Run.run FECDecoder.deliver {} (emitted.map FECBlock.packet) = .ok (outs, d) ∧
      payloads outs = done.map some ∧ done <+: msgs ∧ (e.isFlushed = true → done = msgs) := by
  cases h with
  | plain hoff h hdrained hfit =>
      obtain ⟨outs, d, hrun, hpay⟩ := run_deliver_plain hoff h.emitted hfit {} rfl
      exact ⟨outs, d, msgs, hrun, hpay, List.prefix_rfl, fun _ ↦ rfl⟩
  | @fec hfec b qs h hb hitems hdrained hfit =>
      obtain ⟨outs, d, hrun, hpay⟩ := run_deliver_packets h.isSequence
      rw [← FECBlock.map_packet_of_sentAs h.emitted] at hrun
      have hmsgs : qs.flatMap Sequence.msgs = b.closed.flatMap Batch.items := by
        rw [List.flatMap_def, h.msgs, ← List.flatMap_def]
      refine ⟨outs, d, _, hrun, hpay, ?_, fun hflushed ↦ ?_⟩
      · rw [hmsgs, ← hitems]
        exact List.prefix_append _ _
      · have hnil : b.pending = [] := by
          have hin := List.isEmpty_iff.mp hflushed
          rw [h.pending] at hin
          simpa using congrArg List.length hin
        rw [hmsgs, ← hitems, Batches.items, hnil, List.append_nil]

end Channel

/-! ## What belongs to a link -/

/-- The messages of a link in the output queue (an empty one is a flush), its encoder, its packets
on the way, its decoder, and its packets that are still to be written. -/
structure LinkView where
  queued : List (List UInt8)
  enc : FECEncoder
  flight : List (List UInt8)
  dec : FECDecoder
  out : List (List UInt8)

/-- What `fec_decode_thread` passes on of the blocks of a decoder: those with a length. -/
def finished (out : List (FECBlock × ℕ)) : Except Fault (List (List UInt8)) :=
  (out.filter fun b ↦ 0 < b.1.length).mapM fun b ↦
    match b.1.payload with
    | some pkt => .ok pkt
    | none => .error .bytes

/-- A block with a length is passed on. -/
theorem finished_cons_of_pos {b : FECBlock × ℕ} {out : List (FECBlock × ℕ)} {ms : List (List UInt8)}
    (hlength : 0 < b.1.length) (h : finished (b :: out) = .ok ms) :
    ∃ pkt ms', b.1.payload = some pkt ∧ finished out = .ok ms' ∧ ms = pkt :: ms' := by
  rw [finished, List.filter_cons_of_pos (by rwa [decide_eq_true_eq]), List.mapM_cons] at h
  obtain ⟨pkt, hpkt, h⟩ := bind_eq_ok.mp h
  obtain ⟨ms', hms', h⟩ := bind_eq_ok.mp h
  refine ⟨pkt, ms', ?_, hms', (Except.ok.inj h).symm⟩
  cases hpayload : b.1.payload with
  | none => simp [hpayload] at hpkt
  | some p =>
      simp only [hpayload, Except.ok.injEq] at hpkt
      rw [hpkt]

/-- Other blocks are not. -/
theorem finished_cons_of_not_pos {b : FECBlock × ℕ} {out : List (FECBlock × ℕ)}
    {ms : List (List UInt8)} (hlength : ¬0 < b.1.length) (h : finished (b :: out) = .ok ms) :
    finished out = .ok ms := by
  rwa [finished, List.filter_cons_of_neg (by rwa [decide_eq_true_eq])] at h

theorem finished_eq {out : List (FECBlock × ℕ)} {ms : List (List UInt8)}
    (h : out.map (fun b ↦ b.1.payload) = ms.map some) (hne : ∀ m ∈ ms, m ≠ []) :
    finished out = .ok ms := by
  induction ms generalizing out with
  | nil =>
      rw [List.map_nil, List.map_eq_nil_iff] at h
      rw [h]
      rfl
  | cons m ms ih =>
      obtain ⟨b, out, rfl, hb, hout⟩ := List.map_eq_cons_iff.mp h
      have hrest := ih hout fun m hm ↦ hne m (List.mem_cons_of_mem _ hm)
      have hlength : 0 < b.1.length := by
        rw [← (FECBlock.length_payload hb).1]
        exact List.length_pos_iff.mpr (hne m List.mem_cons_self)
      rw [finished] at hrest ⊢
      rw [List.filter_cons_of_pos (by rwa [decide_eq_true_eq]), List.mapM_cons, hrest]
      simp only [hb, ok_bind]
      rfl

namespace LinkView

variable {l : Link} {v : LinkView} {reads written : List (List UInt8)}

/-- Where the messages that were read are: `pushed` have gone into the encoder, and `consumed` are
the packets that the decoder has got. -/
structure Accounts (l : Link) (reads written : List (List UInt8)) (v : LinkView)
    (pushed : List (List UInt8)) (emitted : List FECBlock) (consumed : List (List UInt8))
    (outs : List (List (FECBlock × ℕ))) : Prop where
  channel : Channel l v.enc emitted pushed
  reads : pushed ++ v.queued.filter (· ≠ []) = reads
  fits : ∀ m ∈ v.queued, m.length + 2 ≤ l.blocksize
  pushed_ne : ∀ m ∈ pushed, m ≠ []
  sent : emitted.map FECBlock.packet = consumed ++ v.flight
  decoded : Run.run FECDecoder.deliver {} consumed = .ok (outs, v.dec)
  written : payloads outs = (written ++ v.out).map some

/-- Nothing is lost. -/
def Inv (l : Link) (reads written : List (List UInt8)) (v : LinkView) : Prop :=
  ∃ pushed emitted consumed outs, v.Accounts l reads written pushed emitted consumed outs

/-- At the start. -/
theorem Inv.init (l : Link) : Inv l [] [] ⟨[], l.encoder, [], {}, []⟩ :=
  ⟨[], [], [], [], .init l, rfl, by simp, by simp, rfl, rfl, rfl⟩

/-- A message is read. -/
theorem Inv.read (h : v.Inv l reads written) {msg : List UInt8} (hne : msg ≠ [])
    (hmsg : msg.length + 2 ≤ l.blocksize) :
    { v with queued := v.queued ++ [msg] }.Inv l (reads ++ [msg]) written := by
  obtain ⟨pushed, emitted, consumed, outs, h⟩ := h
  refine ⟨pushed, emitted, consumed, outs, h.channel, ?_, ?_, h.pushed_ne, h.sent, h.decoded,
    h.written⟩
  · rw [List.filter_append, ← List.append_assoc, h.reads]
    simp [hne]
  · exact Channel.forall_fits h.fits hmsg

/-- A flush is queued. -/
theorem Inv.queueFlush (h : v.Inv l reads written) :
    { v with queued := v.queued ++ [[]] }.Inv l reads written := by
  obtain ⟨pushed, emitted, consumed, outs, h⟩ := h
  refine ⟨pushed, emitted, consumed, outs, h.channel, ?_, ?_, h.pushed_ne, h.sent, h.decoded,
    h.written⟩
  · rw [List.filter_append, ← List.append_assoc, h.reads]
    simp
  · exact Channel.forall_fits h.fits l.two_lt_blocksize.le

/-- The next message is handled: the packets of the encoder are sent, and they fit into frames. -/
theorem Inv.send (h : v.Inv l reads written) {msg : List UInt8} {rest : List (List UInt8)}
    (hqueued : v.queued = msg :: rest) :
    ∃ e', v.enc.handle msg = .ok e' ∧
      (∀ b ∈ e'.outBlocks, b.packet ≠ [] ∧ b.pktLength ≤ l.blocksize + 4) ∧
      { v with
        queued := rest
        enc := e'.drain
        flight := v.flight ++ e'.outBlocks.map FECBlock.packet }.Inv l reads written := by
  obtain ⟨pushed, emitted, consumed, outs, h⟩ := h
  have hfit : msg.length + 2 ≤ l.blocksize := h.fits msg (hqueued ▸ List.mem_cons_self)
  have hfits : ∀ m ∈ rest, m.length + 2 ≤ l.blocksize := fun m hm ↦
    h.fits m (hqueued ▸ List.mem_cons_of_mem _ hm)
  have hreads := h.reads
  rw [hqueued] at hreads
  rw [FECEncoder.handle]
  by_cases hempty : msg = []
  · subst hempty
    obtain ⟨e', hflush, hchannel⟩ := h.channel.flush
    rw [if_pos rfl]
    refine ⟨e', hflush, fun b hb ↦ hchannel.packet_spec b (List.mem_append_right _ hb), pushed,
      emitted ++ e'.outBlocks, consumed, outs, hchannel, ?_, hfits, h.pushed_ne, ?_, h.decoded,
      h.written⟩
    · rw [← hreads]
      simp
    · rw [List.map_append, h.sent, List.append_assoc]
  · obtain ⟨e', hpush, hchannel⟩ := h.channel.push hfit
    rw [if_neg hempty]
    refine ⟨e', hpush, fun b hb ↦ hchannel.packet_spec b (List.mem_append_right _ hb),
      pushed ++ [msg], emitted ++ e'.outBlocks, consumed, outs, hchannel, ?_, hfits, ?_, ?_,
      h.decoded, h.written⟩
    · rw [← hreads]
      simp [hempty]
    · intro m hm
      rcases List.mem_append.mp hm with hm | hm
      · exact h.pushed_ne m hm
      · rwa [List.mem_singleton.mp hm]
    · rw [List.map_append, h.sent, List.append_assoc]

/-- The next packet is decoded. -/
theorem Inv.decode (h : v.Inv l reads written) {pkt : List UInt8} {rest : List (List UInt8)}
    (hflight : v.flight = pkt :: rest) :
    ∃ out d' ms, v.dec.deliver pkt = .ok (out, d') ∧ finished out = .ok ms ∧
      { v with flight := rest, dec := d', out := v.out ++ ms }.Inv l reads written := by
  obtain ⟨pushed, emitted, consumed, outs, h⟩ := h
  obtain ⟨outs', d', done, hrun, hpay, hpre, -⟩ := h.channel.decoded
  rw [h.sent, hflight] at hrun
  -- the whole run passes through the state the decoder is in
  obtain ⟨outs₁, d₁, outs₂, hconsumed, hrest, rfl⟩ := Run.run_append_eq_ok.mp hrun
  obtain ⟨rfl, rfl⟩ := Prod.mk.inj (Except.ok.inj (hconsumed.symm.trans h.decoded))
  obtain ⟨out, d₂, outs₃, hdeliver, -, rfl⟩ := Run.run_cons_eq_ok.mp hrest
  rw [payloads_append, ← List.singleton_append, payloads_append] at hpay
  obtain ⟨ms₁, msRest, rfl, -, hmsRest⟩ := List.map_eq_append_iff.mp hpay.symm
  obtain ⟨ms, ms₃, rfl, hms, -⟩ := List.map_eq_append_iff.mp hmsRest
  have hmem : ∀ m ∈ ms, m ≠ [] := fun m hm ↦ h.pushed_ne m
    (hpre.subset (List.mem_append_right _ (List.mem_append_left _ hm)))
  have hfinished : finished out = .ok ms := by
    refine finished_eq ?_ hmem
    rw [hms, payloads, List.flatten_singleton]
  refine ⟨out, d₂, ms, hdeliver, hfinished, pushed, emitted, consumed ++ [pkt], outs₁ ++ [out],
    h.channel, h.reads, h.fits, h.pushed_ne, ?_, ?_, ?_⟩
  · rw [h.sent, hflight, List.append_assoc, List.singleton_append]
  · exact Run.run_append_eq_ok.mpr ⟨outs₁, _, [out], h.decoded,
      Run.run_cons_eq_ok.mpr ⟨out, d₂, [], hdeliver, rfl, rfl⟩, rfl⟩
  · rw [payloads_append, h.written, ← hms, ← List.append_assoc, ← List.map_append]

/-- The next packet is written. -/
theorem Inv.write (h : v.Inv l reads written) {pkt : List UInt8} {rest : List (List UInt8)}
    (hout : v.out = pkt :: rest) :
    { v with out := rest }.Inv l reads (written ++ [pkt]) := by
  obtain ⟨pushed, emitted, consumed, outs, h⟩ := h
  refine ⟨pushed, emitted, consumed, outs, h.channel, h.reads, h.fits, h.pushed_ne, h.sent,
    h.decoded, ?_⟩
  rw [h.written, hout, List.append_assoc, List.singleton_append]

/-- When nothing is left on the way, all that was read has been written. -/
theorem Inv.done (h : v.Inv l reads written) (hqueued : v.queued = [])
    (hflushed : v.enc.isFlushed = true) (hflight : v.flight = []) (hout : v.out = []) :
    written = reads := by
  obtain ⟨pushed, emitted, consumed, outs, h⟩ := h
  obtain ⟨outs', d', done, hrun, hpay, -, hdone⟩ := h.channel.decoded
  rw [h.sent, hflight, List.append_nil, h.decoded] at hrun
  obtain ⟨rfl, -⟩ := Prod.mk.inj (Except.ok.inj hrun)
  have hwritten := h.written
  rw [hpay, hout, List.append_nil, hdone hflushed] at hwritten
  have hreads := h.reads
  rw [hqueued, List.filter_nil, List.append_nil] at hreads
  rw [← hreads]
  exact (List.map_injective_iff.mpr (Option.some_injective _) hwritten).symm

end LinkView

end WfbBridge
