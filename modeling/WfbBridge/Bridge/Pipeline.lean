import Mathlib
import WfbBridge.Bridge.Congestion
import WfbBridge.Bridge.Delivery
import WfbBridge.Library.Drops

/-!
# A link that loses

Queues may be full, blocks may be withheld and frames may be lost in the air.  A link is still a
pipeline: the encoder takes some of the packets that are read, the decoder gets some of the packets
of the encoder, and some of what it outputs is written.  `Losses` says at which of these places
something may be lost, and `LinkView.Pipe` is the pipeline in the middle of a run.
-/

namespace WfbBridge

open Checked

/-- A turn of `raw_send_thread` at an encoder: a message or a flush goes in,
and all blocks come out. -/
def FECEncoder.serve (e : FECEncoder) (msg : List UInt8) :
    Except Fault (List FECBlock × FECEncoder) := do
  let e ← e.handle msg
  .ok (e.outBlocks, e.drain)

namespace Bridge

/-- A step of a thread, or of the air between the two sides. -/
inductive LossyOp where
  | thread (op : Op)
  /-- The next frame does not reach the other side. -/
  | lose

/-- The packets that are read. -/
def lossyReads (ops : List LossyOp) : List (List UInt8) :=
  reads (ops.filterMap fun
    | .thread op => some op
    | .lose => none)

/-- One step. -/
def lossyStep (c : Bridge) (s : BridgeState) :
    LossyOp → Except Fault (Option (ℕ × List UInt8) × BridgeState)
  | .thread op => c.step s op
  | .lose => .ok (none, { s with air := s.air.tail })

end Bridge

/-- Where something may be lost: before the encoder, between the encoder and the decoder, and after
the decoder.  FEC blocks may be withheld in any case. -/
structure Losses where
  reads : Bool
  frames : Bool
  outputs : Bool

namespace Losses

/-- The packets that may be lost. -/
def packet (L : Losses) (pkt : List UInt8) : Prop :=
  L.frames ∨ ∃ b : FECBlock, b.isFecBlock ∧ b.packet = pkt

/-- A step loses nothing that may not be lost, and frames are captured whole. -/
def Allows (L : Losses) (s : BridgeState) : Bridge.LossyOp → Prop
  | .thread (.read _ _) => s.outqueue.size < s.outqueue.maxSize ∨ L.reads
  | .thread (.receive rt fcs _) => (s.inqueue.size < s.inqueue.maxSize ∨ L.frames) ∧
      WellFormedRadiotap rt ∧ fcs.length = 4 ∧ ∀ frame ∈ s.air.head?,
        (rt ++ frame ++ fcs).length ≤ 4096
  | .thread .finish => s.sendQueue.size < s.sendQueue.maxSize ∨ L.outputs
  | .lose => L.frames
  | _ => True

instance (L : Losses) (s : BridgeState) : ∀ op, Decidable (L.Allows s op)
  | .thread (.read _ _) => inferInstanceAs (Decidable (_ ∨ _))
  | .thread (.flush _) => isTrue trivial
  | .thread .take => isTrue trivial
  | .thread (.transmit _ _) => isTrue trivial
  | .thread (.receive _ _ _) => inferInstanceAs (Decidable (_ ∧ _ ∧ _ ∧ ∀ _ ∈ _, _ ≤ _))
  | .thread .decode => isTrue trivial
  | .thread .finish => inferInstanceAs (Decidable (_ ∨ _))
  | .thread .write => isTrue trivial
  | .lose => inferInstanceAs (Decidable (_ = _))

end Losses

/-! ## The encoder -/

namespace Channel

variable {l : Link} {e e' : FECEncoder} {emitted blocks : List FECBlock} {msgs : List (List UInt8)}
  {msg : List UInt8}

theorem maxBlockSize (h : Channel l e emitted msgs) : e.maxBlockSize = l.blocksize := by
  cases h with
  | plain _ h => exact h.maxBlockSize
  | fec _ h => exact h.params.maxBlockSize

/-- A turn that does not leave a buffer. -/
theorem serve (h : Channel l e emitted msgs) (hserve : e.serve msg = .ok (blocks, e')) :
    Channel l e' (emitted ++ blocks) (msgs ++ [msg].filter (· ≠ [])) := by
  rw [FECEncoder.serve] at hserve
  obtain ⟨e₁, hhandle, he₁⟩ := bind_eq_ok.mp hserve
  obtain ⟨rfl, rfl⟩ := Prod.mk.inj (Except.ok.inj he₁)
  have hfit := (Link.fits_of_handle h.maxBlockSize hhandle).1
  rw [FECEncoder.handle] at hhandle
  by_cases hempty : msg = []
  · subst hempty
    rw [if_pos rfl] at hhandle
    obtain ⟨e₂, hflush, hchannel⟩ := h.flush
    obtain rfl := Except.ok.inj (hflush.symm.trans hhandle)
    rw [List.filter_cons_of_neg (by simp), List.filter_nil, List.append_nil]
    exact hchannel
  · rw [if_neg hempty] at hhandle
    obtain ⟨e₂, hpush, hchannel⟩ := h.push hfit
    obtain rfl := Except.ok.inj (hpush.symm.trans hhandle)
    rw [List.filter_cons_of_pos (by simpa using hempty), List.filter_nil]
    exact hchannel

/-- All turns. -/
theorem run_serve {taken : List (List UInt8)} {outs : List (List FECBlock)}
    (h : Channel l e emitted msgs) (hrun : Run.run FECEncoder.serve e taken = .ok (outs, e')) :
    Channel l e' (emitted ++ outs.flatten) (msgs ++ taken.filter (· ≠ [])) := by
  induction taken generalizing e emitted msgs outs with
  | nil =>
      obtain ⟨rfl, rfl⟩ := Prod.mk.inj (Except.ok.inj hrun)
      simpa using h
  | cons msg taken ih =>
      obtain ⟨blocks, e₁, outs, hserve, hrest, rfl⟩ := Run.run_cons_eq_ok.mp hrun
      have h' := ih (h.serve hserve) hrest
      rw [List.append_assoc, List.append_assoc, ← List.filter_append] at h'
      exact h'

end Channel

/-! ## What is passed on -/

theorem finished_concat {out : List (FECBlock × ℕ)} {ms : List (List UInt8)}
    (h : finished out = .ok ms) {b : FECBlock × ℕ} {pkt : List UInt8} (hlength : 0 < b.1.length)
    (hpkt : b.1.payload = some pkt) :
    finished (out ++ [b]) = .ok (ms ++ [pkt]) := by
  rw [finished] at h
  rw [finished, List.filter_append, List.mapM_append, h, ok_bind,
    List.filter_cons_of_pos (by rwa [decide_eq_true_eq]), List.filter_nil, List.mapM_cons, hpkt]
  rfl

theorem finished_concat_empty {out : List (FECBlock × ℕ)} {ms : List (List UInt8)}
    (h : finished out = .ok ms) {b : FECBlock × ℕ} (hlength : ¬0 < b.1.length) :
    finished (out ++ [b]) = .ok ms := by
  rw [finished] at h
  rw [finished, List.filter_append, List.filter_cons_of_neg (by rwa [decide_eq_true_eq]),
    List.filter_nil, List.append_nil, h]

/-! ## The pipeline of a link -/

/-- The encoder has taken `taken` and given out `emitted`, the decoder has got `consumed` and given
out `outs`, of which `pending` is left, and `passed` is what was passed on. -/
structure Pipeline (L : Losses) (l : Link) (reads written : List (List UInt8)) (v : LinkView)
    (pending : List (FECBlock × ℕ)) (taken : List (List UInt8)) (emitted : List (List FECBlock))
    (consumed : List (List UInt8)) (outs : List (List (FECBlock × ℕ)))
    (passed : List (List UInt8)) :
    Prop where
  reads : Drops (fun _ ↦ L.reads) reads ((taken ++ v.queued).filter (· ≠ []))
  encoded : Run.run FECEncoder.serve l.encoder taken = .ok (emitted, v.enc)
  sent : Drops L.packet (emitted.flatten.map FECBlock.packet) (consumed ++ v.flight)
  decoded : Run.run FECDecoder.deliver {} consumed = .ok (outs, v.dec)
  finished : ∃ done, outs.flatten = done ++ pending ∧ finished done = .ok passed
  written : Drops (fun _ ↦ L.outputs) passed (written ++ v.out)

namespace LinkView

/-- The pipeline in the middle of a run. -/
def Pipe (L : Losses) (l : Link) (reads written taken consumed : List (List UInt8)) (v : LinkView)
    (pending : List (FECBlock × ℕ)) : Prop :=
  ∃ emitted outs passed, Pipeline L l reads written v pending taken emitted consumed outs passed

namespace Pipe

variable {L : Losses} {l : Link} {reads written taken consumed : List (List UInt8)} {v : LinkView}
  {pending : List (FECBlock × ℕ)}

theorem init (L : Losses) (l : Link) : Pipe L l [] [] [] [] ⟨[], l.encoder, [], {}, []⟩ [] :=
  ⟨[], [], [], .nil, rfl, .nil, rfl, ⟨[], rfl, rfl⟩, .nil⟩

/-- A packet is read. -/
theorem read (h : v.Pipe L l reads written taken consumed pending) {msg : List UInt8}
    (hne : msg ≠ []) :
    { v with queued := v.queued ++ [msg] }.Pipe L l (reads ++ [msg]) written taken consumed
      pending := by
  obtain ⟨emitted, outs, passed, h⟩ := h
  refine ⟨emitted, outs, passed, ?_, h.encoded, h.sent, h.decoded, h.finished, h.written⟩
  rw [← List.append_assoc, List.filter_append, List.filter_cons_of_pos (by simpa using hne),
    List.filter_nil]
  exact h.reads.concat msg

/-- A packet is read and lost. -/
theorem lose_read (h : v.Pipe L l reads written taken consumed pending) (hL : L.reads)
    (msg : List UInt8) :
    v.Pipe L l (reads ++ [msg]) written taken consumed pending := by
  obtain ⟨emitted, outs, passed, h⟩ := h
  exact ⟨emitted, outs, passed, h.reads.concat_drop hL, h.encoded, h.sent, h.decoded,
    h.finished, h.written⟩

/-- A flush is queued. -/
theorem queueFlush (h : v.Pipe L l reads written taken consumed pending) :
    { v with queued := v.queued ++ [[]] }.Pipe L l reads written taken consumed pending := by
  obtain ⟨emitted, outs, passed, h⟩ := h
  refine ⟨emitted, outs, passed, ?_, h.encoded, h.sent, h.decoded, h.finished, h.written⟩
  rw [← List.append_assoc, List.filter_append, List.filter_cons_of_neg (by simp), List.filter_nil,
    List.append_nil]
  exact h.reads

/-- What the encoder has given out, and what it has taken. -/
theorem channel {taken : List (List UInt8)} {emitted : List (List FECBlock)}
    (h : Run.run FECEncoder.serve l.encoder taken = .ok (emitted, v.enc)) :
    Channel l v.enc emitted.flatten (taken.filter (· ≠ [])) := by
  simpa using (Channel.init l).run_serve h

/-- The next message goes into the encoder, and its blocks fit into frames. -/
theorem serve (h : v.Pipe L l reads written taken consumed pending) (msg : List UInt8)
    (rest : List (List UInt8)) (hqueued : v.queued = msg :: rest) {e' : FECEncoder}
    (hhandle : v.enc.handle msg = .ok e') :
    (∀ b ∈ e'.outBlocks, b.packet ≠ [] ∧ b.pktLength ≤ l.blocksize + 4) ∧
      { v with
        queued := rest
        enc := e'.drain
        flight := v.flight ++ e'.outBlocks.map FECBlock.packet }.Pipe L l reads written
          (taken ++ [msg]) consumed pending := by
  obtain ⟨emitted, outs, passed, h⟩ := h
  have hserve : v.enc.serve msg = .ok (e'.outBlocks, e'.drain) := by
    rw [FECEncoder.serve, hhandle]
    rfl
  constructor
  · have hchannel := (channel h.encoded).serve hserve
    exact fun b hb ↦ hchannel.packet_spec b (List.mem_append_right _ hb)
  · refine ⟨emitted ++ [e'.outBlocks], outs, passed, ?_, ?_, ?_, h.decoded,
      h.finished, h.written⟩
    · rw [List.append_assoc, List.singleton_append, ← hqueued]
      exact h.reads
    · exact Run.run_append_eq_ok.mpr ⟨emitted, v.enc, [e'.outBlocks], h.encoded,
        Run.run_cons_eq_ok.mpr ⟨_, _, [], hserve, rfl, rfl⟩, rfl⟩
    · rw [List.flatten_append, List.flatten_singleton, List.map_append, ← List.append_assoc]
      exact h.sent.append (.refl _ _)

/-- A packet on the way is lost. -/
theorem lose (h : v.Pipe L l reads written taken consumed pending)
    {before after : List (List UInt8)} {pkt : List UInt8}
    (hflight : v.flight = before ++ pkt :: after) (hL : L.packet pkt) :
    { v with flight := before ++ after }.Pipe L l reads written taken consumed pending := by
  obtain ⟨emitted, outs, passed, h⟩ := h
  refine ⟨emitted, outs, passed, h.reads, h.encoded, ?_, h.decoded, h.finished, h.written⟩
  have hsent := h.sent
  rw [hflight, ← List.append_assoc] at hsent
  rw [← List.append_assoc]
  exact hsent.erase hL

/-- The next packet goes into the decoder. -/
theorem decode (h : v.Pipe L l reads written taken consumed pending) (pkt : List UInt8)
    {rest : List (List UInt8)} (hflight : v.flight = pkt :: rest) (out : List (FECBlock × ℕ))
    (d' : FECDecoder) (hdeliver : v.dec.deliver pkt = .ok (out, d')) :
    { v with flight := rest, dec := d' }.Pipe L l reads written taken (consumed ++ [pkt])
      (pending ++ out) := by
  obtain ⟨emitted, outs, passed, h⟩ := h
  obtain ⟨done, houts, hdone⟩ := h.finished
  refine ⟨emitted, outs ++ [out], passed, h.reads, h.encoded, ?_, ?_,
    ⟨done, ?_, hdone⟩, h.written⟩
  · rw [List.append_assoc, List.singleton_append, ← hflight]
    exact h.sent
  · exact Run.run_append_eq_ok.mpr ⟨outs, v.dec, [out], h.decoded,
      Run.run_cons_eq_ok.mpr ⟨out, d', [], hdeliver, rfl, rfl⟩, rfl⟩
  · rw [List.flatten_append, List.flatten_singleton, houts, List.append_assoc]

variable {b : FECBlock × ℕ}

/-- A block without a length is skipped. -/
theorem skip (h : v.Pipe L l reads written taken consumed (b :: pending))
    (hlength : ¬0 < b.1.length) :
    v.Pipe L l reads written taken consumed pending := by
  obtain ⟨emitted, outs, passed, h⟩ := h
  obtain ⟨done, houts, hdone⟩ := h.finished
  exact ⟨emitted, outs, passed, h.reads, h.encoded, h.sent, h.decoded,
    ⟨done ++ [b], by simpa using houts, finished_concat_empty hdone hlength⟩, h.written⟩

/-- A block is passed on. -/
theorem pass (h : v.Pipe L l reads written taken consumed (b :: pending)) (hlength : 0 < b.1.length)
    {pkt : List UInt8} (hpkt : b.1.payload = some pkt) :
    { v with out := v.out ++ [pkt] }.Pipe L l reads written taken consumed pending := by
  obtain ⟨emitted, outs, passed, h⟩ := h
  obtain ⟨done, houts, hdone⟩ := h.finished
  refine ⟨emitted, outs, passed ++ [pkt], h.reads, h.encoded, h.sent, h.decoded,
    ⟨done ++ [b], by simpa using houts, finished_concat hdone hlength hpkt⟩, ?_⟩
  rw [← List.append_assoc]
  exact h.written.concat pkt

/-- A block is lost on the way out. -/
theorem lose_output (h : v.Pipe L l reads written taken consumed (b :: pending))
    (hlength : 0 < b.1.length) {pkt : List UInt8} (hpkt : b.1.payload = some pkt) (hL : L.outputs) :
    v.Pipe L l reads written taken consumed pending := by
  obtain ⟨emitted, outs, passed, h⟩ := h
  obtain ⟨done, houts, hdone⟩ := h.finished
  exact ⟨emitted, outs, passed ++ [pkt], h.reads, h.encoded, h.sent, h.decoded,
    ⟨done ++ [b], by simpa using houts, finished_concat hdone hlength hpkt⟩,
      h.written.concat_drop hL⟩

/-- The next packet is written. -/
theorem write (h : v.Pipe L l reads written taken consumed pending) {pkt : List UInt8}
    {rest : List (List UInt8)} (hout : v.out = pkt :: rest) :
    { v with out := rest }.Pipe L l reads (written ++ [pkt]) taken consumed pending := by
  obtain ⟨emitted, outs, passed, h⟩ := h
  refine ⟨emitted, outs, passed, h.reads, h.encoded, h.sent, h.decoded, h.finished, ?_⟩
  rw [List.append_assoc, List.singleton_append, ← hout]
  exact h.written

end Pipe

end LinkView

end WfbBridge
