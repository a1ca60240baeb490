import Mathlib
import WfbBridge.Bridge.Recovery

/-!
# The threads come to rest

When nothing is read any more, every step that changes something brings the packets nearer to the
TUN device of the other side: a message goes into its encoder, a block out of it, a frame through
the air, a message into its decoder, and so on.  The turns of the loop that flushes the encoders put
messages into the output queue; but only for encoders that are not flushed, and only as long as
there is room.

`rank` counts what is left, stage by stage, and `helps` is the kind of step that is bound to change
something.
-/

namespace WfbBridge

open Checked

namespace Bridge

/-- The kinds of steps. -/
inductive Kind where
  | read
  | flush (ipPort : ℕ)
  | take
  | transmit
  /-- the next frame is captured or lost -/
  | air
  | decode
  | finish
  | write
deriving DecidableEq

/-- The kind of a step. -/
def LossyOp.kind : LossyOp → Kind
  | .thread (.read _ _) => .read
  | .thread (.flush ipPort) => .flush ipPort
  | .thread .take => .take
  | .thread (.transmit _ _) => .transmit
  | .thread (.receive _ _ _) => .air
  | .thread .decode => .decode
  | .thread .finish => .finish
  | .thread .write => .write
  | .lose => .air

/-! ## What is left -/

/-- Encoder `i` is not flushed. -/
def unflushed (encoders : List FECEncoder) (i : ℕ) : Bool := encoders[i]?.any (!·.isFlushed)

/-- The messages up to the last one that is not a flush. -/
def upToLast : List Message → ℕ
  | [] => 0
  | m :: ms => if upToLast ms = 0 ∧ m.msg = [] then 0 else upToLast ms + 1

/-- The messages before the first one that meets `p`, and one more if there is none. -/
def before (p : Message → Bool) : List Message → ℕ
  | [] => 1
  | m :: ms => if p m then 0 else before p ms + 1

/-- The blocks of the encoder at work. -/
def encoded (s : BridgeState) : ℕ :=
  match s.sending with
  | none => 0
  | some m => (s.encoders[m.enc]?.elim 0 FECEncoder.nOutputBlocks) + 1

/-- The blocks of the decoder at work. -/
def decoded (s : BridgeState) : ℕ :=
  match s.decoding with
  | none => 0
  | some i => (s.decoders[i]?.elim 0 fun d ↦ d.outBlocks.length) + 1

/-- What is left, stage by stage. -/
def rank (s : BridgeState) : ℕ ×ₗ ℕ ×ₗ ℕ ×ₗ ℕ ×ₗ ℕ ×ₗ ℕ ×ₗ ℕ ×ₗ ℕ ×ₗ ℕ :=
  toLex (upToLast s.outqueue.queue, toLex (s.encoders.countP (!·.isFlushed),
    toLex (before (fun m ↦ unflushed s.encoders m.enc) s.outqueue.queue,
    toLex (s.outqueue.maxSize - s.outqueue.size, toLex (encoded s, toLex (s.air.length,
    toLex (s.inqueue.size, toLex (decoded s, s.sendQueue.size))))))))

/-- The kind of step that is bound to change something. -/
def helps (c : Bridge) (s : BridgeState) : Kind :=
  if s.sending.isSome then .transmit
  else if s.outqueue.queue ≠ [] then .take
  else
    match c.portMsgLut.find? fun entry ↦ unflushed s.encoders entry.2.enc with
    | some entry => .flush entry.1
    | none =>
        if s.air ≠ [] then .air
        else if s.decoding.isSome then .finish
        else if s.inqueue.queue ≠ [] then .decode
        else .write

/-! ## The messages in the output queue -/

theorem upToLast_concat {m : Message} (hm : m.msg = []) (ms : List Message) :
    upToLast (ms ++ [m]) = upToLast ms := by
  induction ms with
  | nil => exact if_pos ⟨rfl, hm⟩
  | cons x ms ih => rw [List.cons_append, upToLast, upToLast, ih]

/-- Either the first message counts, or nothing but flushes is left. -/
theorem upToLast_cons (m : Message) (ms : List Message) :
    upToLast ms < upToLast (m :: ms) ∨ m.msg = [] ∧ upToLast (m :: ms) = 0 ∧ upToLast ms = 0 := by
  rw [upToLast]
  split
  case isTrue h => exact .inr ⟨h.2, rfl, h.1⟩
  case isFalse => exact .inl (Nat.lt_succ_self _)

theorem before_concat {p : Message → Bool} {m : Message} (hm : p m = true) (ms : List Message) :
    before p (ms ++ [m]) ≤ before p ms := by
  induction ms with
  | nil =>
      simp only [List.nil_append, before, if_pos hm]
      exact Nat.zero_le _
  | cons x ms ih =>
      rw [List.cons_append, before, before]
      split
      · exact le_rfl
      · exact Nat.add_le_add_right ih 1

variable {encoders : List FECEncoder} {i : ℕ} {e e' : FECEncoder}

theorem unflushed_of_getElem? (he : encoders[i]? = some e) :
    unflushed encoders i = !e.isFlushed := by
  rw [unflushed, he, Option.any_some]

/-- An encoder that is as flushed as before. -/
theorem unflushed_set (he : encoders[i]? = some e) (hsame : e'.isFlushed = e.isFlushed) :
    unflushed (encoders.set i e') = unflushed encoders := by
  have hi := (List.getElem?_eq_some_iff.mp he).1
  funext j
  by_cases hij : i = j
  · subst hij
    rw [unflushed_of_getElem? he, unflushed_of_getElem? (List.getElem?_set_self hi), hsame]
  · rw [unflushed, unflushed, List.getElem?_set_ne hij]

theorem countP_set (he : encoders[i]? = some e) : (encoders.set i e').countP (!·.isFlushed) =
    encoders.countP (!·.isFlushed) - (if e.isFlushed then 0 else 1) +
      (if e'.isFlushed then 0 else 1) := by
  obtain ⟨hi, hget⟩ := List.getElem?_eq_some_iff.mp he
  rw [List.countP_set hi, hget]
  cases e.isFlushed <;> cases e'.isFlushed <;> rfl

theorem countP_set_same (he : encoders[i]? = some e) (hsame : e'.isFlushed = e.isFlushed) :
    (encoders.set i e').countP (!·.isFlushed) = encoders.countP (!·.isFlushed) := by
  rw [countP_set he, hsame]
  cases hflushed : e.isFlushed with
  | true => rfl
  | false =>
      have hpos : 0 < encoders.countP (!·.isFlushed) :=
        List.countP_pos_iff.mpr ⟨e, List.mem_of_getElem? he, by rw [hflushed]; rfl⟩
      exact Nat.sub_add_cancel hpos

end Bridge

/-- After a flush an encoder is flushed. -/
theorem Channel.isFlushed_flush {l : Link} {e e' : FECEncoder} {emitted : List FECBlock}
    {msgs : List (List UInt8)} (h : Channel l e emitted msgs) (hflush : e.flush = .ok e') :
    e'.isFlushed = true := by
  cases h with
  | plain hoff h hdrained _ =>
      obtain rfl := Except.ok.inj ((h.flush_drain hdrained).1.symm.trans hflush)
      rw [FECEncoder.isFlushed, h.inBlocks]
      rfl
  | @fec hfec b qs h hb hitems hdrained hfit =>
      obtain ⟨e₁, qs', hflush', h'⟩ := h.flush_drain hdrained hb (hitems ▸ hfit)
      obtain rfl := Except.ok.inj (hflush'.symm.trans hflush)
      have hnil : b.flush.pending = [] := by
        rw [Batches.flush]
        split
        case isTrue hempty => exact List.isEmpty_iff.mp hempty
        case isFalse => rfl
      have hin : e₁.inBlocks = [] := by
        have hpending := h'.pending
        rwa [hnil] at hpending
      rw [FECEncoder.isFlushed, hin]
      rfl

/-- A queue in which there is something had room for it. -/
theorem SharedQueue.pos_of_push {α : Type} {q : SharedQueue α} {m : α}
    (h : q.queue ≠ [] → 0 < q.maxSize) (hne : (q.push m).queue ≠ []) : 0 < (q.push m).maxSize := by
  rcases q.push_cases m with ⟨hlt, hpush⟩ | ⟨-, -, hpush⟩ | ⟨-, -, hpush⟩
  · rw [hpush]
    exact Nat.zero_lt_of_lt hlt
  · rw [hpush] at hne ⊢
    exact h hne
  · rw [hpush] at hne ⊢
    by_contra hzero
    exact hne (if_neg hzero)

namespace Bridge

/-- There is an encoder for every link, and what is or was queued had room in the queue. -/
structure Served (b : BridgeConfig) (s : BridgeState) : Prop where
  encoders : s.encoders.length = b.links.length
  queued : s.outqueue.queue ≠ [] → 0 < s.outqueue.maxSize
  unflushed : ∀ e ∈ s.encoders, e.isFlushed = false → 0 < s.outqueue.maxSize

variable {b : BridgeConfig} {c : Bridge} {l : Links} {s s' : BridgeState}
  {out : Option (ℕ × List UInt8)}

theorem Served.start (hl : l.Configured b.blocksize b.links) : Served b (b.start l) := by
  refine ⟨?_, fun h ↦ absurd rfl h, fun e he hflushed ↦ ?_⟩
  · change l.encoders.length = _
    rw [hl.encoders, List.length_map]
  · change e ∈ l.encoders at he
    rw [hl.encoders] at he
    obtain ⟨g, -, rfl⟩ := List.mem_map.mp he
    cases hflushed

theorem Served.push (h : Served b s) (m : Message) :
    Served b { s with outqueue := s.outqueue.push m } := by
  refine ⟨h.encoders, SharedQueue.pos_of_push h.queued, fun e he hflushed ↦ ?_⟩
  rw [(s.outqueue.push_settings m).1]
  exact h.unflushed e he hflushed

/-- The next message goes into its encoder. -/
theorem take_cases (htake : take s = .ok s') : s' = s ∧ (s.sending.isSome ∨ s.outqueue.queue = []) ∨
    ∃ m rest e e', s.sending = none ∧ s.outqueue.queue = m :: rest ∧ s.encoders[m.enc]? = some e ∧
      e.handle m.msg = .ok e' ∧ s' = { s with
        outqueue := { s.outqueue with queue := rest }
        encoders := s.encoders.set m.enc e'
        sending := some m } := by
  rw [take] at htake
  cases hsending : s.sending with
  | some m =>
      simp only [hsending] at htake
      exact .inl ⟨(Except.ok.inj htake).symm, .inl rfl⟩
  | none =>
      cases hqueue : s.outqueue.queue with
      | nil =>
          simp only [hsending, SharedQueue.tryPop, hqueue] at htake
          exact .inl ⟨(Except.ok.inj htake).symm, .inr rfl⟩
      | cons m rest =>
          simp only [hsending, SharedQueue.tryPop, hqueue] at htake
          obtain ⟨e, he, htake⟩ := bind_eq_ok.mp htake
          obtain ⟨e', he', htake⟩ := bind_eq_ok.mp htake
          exact .inr ⟨m, rest, e, e', rfl, rfl, readAt_eq_ok.mp he, he', (Except.ok.inj htake).symm⟩

/-- The next block comes out of its encoder. -/
theorem transmit_cases {pad2 now : UInt8} (htransmit : c.transmit s pad2 now = .ok s') :
    s' = s ∧ s.sending = none ∨
    (∃ m e, s.sending = some m ∧ s.encoders[m.enc]? = some e ∧ e.outBlocks = [] ∧
      s' = { s with sending := none }) ∨
    ∃ m e block rest air, s.sending = some m ∧ s.encoders[m.enc]? = some e ∧
      e.outBlocks = block :: rest ∧
        s' = { s with encoders := s.encoders.set m.enc { e with outBlocks := rest }, air } := by
  rw [transmit] at htransmit
  cases hsending : s.sending with
  | none =>
      simp only [hsending] at htransmit
      exact .inl ⟨(Except.ok.inj htransmit).symm, rfl⟩
  | some m =>
      simp only [hsending] at htransmit
      obtain ⟨e, he, htransmit⟩ := bind_eq_ok.mp htransmit
      have he := readAt_eq_ok.mp he
      cases hout : e.outBlocks with
      | nil =>
          simp only [FECEncoder.getBlock, hout] at htransmit
          exact .inr (.inl ⟨m, e, rfl, he, hout, (Except.ok.inj htransmit).symm⟩)
      | cons block rest =>
          simp only [FECEncoder.getBlock, hout] at htransmit
          refine .inr (.inr ⟨m, e, block, rest, s'.air, rfl, he, hout, ?_⟩)
          split at htransmit
          · obtain rfl := Except.ok.inj htransmit
            rfl
          · obtain ⟨frame?, -, htransmit⟩ := bind_eq_ok.mp htransmit
            obtain rfl := Except.ok.inj htransmit
            rfl

/-- What `read` and `flush` do with the output queue. -/
theorem read_cases (c : Bridge) (s : BridgeState) (pkt : List UInt8) :
    c.read s pkt = s ∨ ∃ m, c.read s pkt = { s with outqueue := s.outqueue.push m } := by
  simp only [read]
  split
  · exact .inr ⟨_, rfl⟩
  · exact .inl rfl

theorem flush_cases {ipPort : ℕ} (hflush : c.flush s ipPort = .ok s') :
    (s' = s ∧ ∀ proto, SortedMap.find ipPort c.portMsgLut = some proto →
      unflushed s.encoders proto.enc = false) ∨
    ∃ m, m.msg = [] ∧ unflushed s.encoders m.enc = true ∧
      s' = { s with outqueue := s.outqueue.push m } := by
  rw [flush] at hflush
  cases hfind : SortedMap.find ipPort c.portMsgLut with
  | none =>
      simp only [hfind] at hflush
      exact .inl ⟨(Except.ok.inj hflush).symm, by simp⟩
  | some proto =>
      simp only [hfind] at hflush
      obtain ⟨e, he, hflush⟩ := bind_eq_ok.mp hflush
      have hunflushed := unflushed_of_getElem? (readAt_eq_ok.mp he)
      split at hflush
      case isTrue hflushed =>
        refine .inl ⟨(Except.ok.inj hflush).symm, ?_⟩
        rintro proto' hproto
        obtain rfl := Option.some.inj hproto
        rw [hunflushed, hflushed]
        rfl
      case isFalse hflushed =>
        refine .inr ⟨proto.copy [] proto.ipPort, rfl, ?_, (Except.ok.inj hflush).symm⟩
        change unflushed s.encoders proto.enc = true
        rw [hunflushed, Bool.eq_false_iff.mpr hflushed]
        rfl

/-- The next frame is captured, or not. -/
theorem receive_cases {rt fcs : List UInt8} {curTime : ℕ}
    (hreceive : c.receive s rt fcs curTime = .ok s') :
    s' = s ∧ s.air = [] ∨
    ∃ frame air inqueue, s.air = frame :: air ∧ s' = { s with air, inqueue } := by
  rw [receive] at hreceive
  cases hair : s.air with
  | nil =>
      simp only [hair] at hreceive
      exact .inl ⟨(Except.ok.inj hreceive).symm, rfl⟩
  | cons frame air =>
      simp only [hair] at hreceive
      refine .inr ⟨frame, air, s'.inqueue, rfl, ?_⟩
      split at hreceive
      · obtain ⟨msg?, -, hreceive⟩ := bind_eq_ok.mp hreceive
        cases msg? with
        | none =>
            obtain rfl := Except.ok.inj hreceive
            rfl
        | some msg =>
            dsimp only at hreceive
            split at hreceive
            · obtain rfl := Except.ok.inj hreceive
              rfl
            · obtain rfl := Except.ok.inj hreceive
              rfl
      · obtain rfl := Except.ok.inj hreceive
        rfl

/-- The next message goes into its decoder. -/
theorem decode_cases (hdecode : decode s = .ok s') :
    s' = s ∧ (s.decoding.isSome ∨ s.inqueue.queue = []) ∨
    ∃ m rest decoders decoding, s.inqueue.queue = m :: rest ∧ s' = { s with
      inqueue := { s.inqueue with queue := rest }, decoders, decoding } := by
  rw [decode] at hdecode
  cases hdecoding : s.decoding with
  | some i =>
      simp only [hdecoding] at hdecode
      exact .inl ⟨(Except.ok.inj hdecode).symm, .inl rfl⟩
  | none =>
      cases hqueue : s.inqueue.queue with
      | nil =>
          simp only [hdecoding, SharedQueue.tryPop, hqueue] at hdecode
          exact .inl ⟨(Except.ok.inj hdecode).symm, .inr rfl⟩
      | cons m rest =>
          simp only [hdecoding, SharedQueue.tryPop, hqueue] at hdecode
          refine .inr ⟨m, rest, s'.decoders, s'.decoding, rfl, ?_⟩
          split at hdecode
          · obtain rfl := Except.ok.inj hdecode
            rfl
          · obtain ⟨d, -, hdecode⟩ := bind_eq_ok.mp hdecode
            obtain ⟨d', -, hdecode⟩ := bind_eq_ok.mp hdecode
            obtain rfl := Except.ok.inj hdecode
            rfl

/-- The next block comes out of its decoder. -/
theorem finish_cases (hfinish : finish s = .ok s') : s' = s ∧ s.decoding = none ∨
    (∃ i, s.decoding = some i ∧ s' = { s with decoding := none }) ∨
    ∃ i d block rest sendQueue, s.decoding = some i ∧ s.decoders[i]? = some d ∧
      d.outBlocks = block :: rest ∧
        s' = { s with decoders := s.decoders.set i { d with outBlocks := rest }, sendQueue } := by
  rw [finish] at hfinish
  cases hdecoding : s.decoding with
  | none =>
      simp only [hdecoding] at hfinish
      exact .inl ⟨(Except.ok.inj hfinish).symm, rfl⟩
  | some i =>
      simp only [hdecoding] at hfinish
      obtain ⟨d, hd, hfinish⟩ := bind_eq_ok.mp hfinish
      have hd := readAt_eq_ok.mp hd
      cases hout : d.outBlocks with
      | nil =>
          simp only [FECDecoder.getBlock, hout] at hfinish
          exact .inr (.inl ⟨i, rfl, (Except.ok.inj hfinish).symm⟩)
      | cons block rest =>
          simp only [FECDecoder.getBlock, hout] at hfinish
          refine .inr (.inr ⟨i, d, block, rest, s'.sendQueue, rfl, hd, hout, ?_⟩)
          split at hfinish
          · cases hpayload : block.1.payload with
            | none =>
                rw [hpayload] at hfinish
                cases hfinish
            | some pkt =>
                rw [hpayload] at hfinish
                obtain rfl := Except.ok.inj hfinish
                rw [← hdecoding]
          · obtain rfl := Except.ok.inj hfinish
            rw [← hdecoding]

/-- Every step keeps the encoders in service. -/
theorem Served.step (h : Served b s) {op : LossyOp} (hstep : c.lossyStep s op = .ok (out, s')) :
    Served b s' := by
  cases op with
  | lose =>
      obtain ⟨-, rfl⟩ := Prod.mk.inj (Except.ok.inj hstep)
      exact ⟨h.encoders, h.queued, h.unflushed⟩
  | thread op =>
      cases op with
      | read pkt hne =>
          obtain ⟨-, rfl⟩ := Prod.mk.inj (Except.ok.inj hstep)
          rcases c.read_cases s pkt with heq | ⟨m, heq⟩ <;> rw [heq]
          · exact h
          · exact h.push m
      | flush ipPort =>
          obtain ⟨t, ht, hout⟩ := bind_eq_ok.mp hstep
          obtain ⟨-, rfl⟩ := Prod.mk.inj (Except.ok.inj hout)
          rcases flush_cases ht with ⟨rfl, -⟩ | ⟨m, -, -, rfl⟩
          · exact h
          · exact h.push m
      | take =>
          obtain ⟨t, ht, hout⟩ := bind_eq_ok.mp hstep
          obtain ⟨-, rfl⟩ := Prod.mk.inj (Except.ok.inj hout)
          rcases take_cases ht with ⟨rfl, -⟩ | ⟨m, rest, e, e', -, hqueue, -, -, rfl⟩
          · exact h
          · have hpos := h.queued (hqueue ▸ List.cons_ne_nil m rest)
            exact ⟨by rw [List.length_set, h.encoders], fun _ ↦ hpos, fun _ _ _ ↦ hpos⟩
      | transmit pad2 now =>
          obtain ⟨t, ht, hout⟩ := bind_eq_ok.mp hstep
          obtain ⟨-, rfl⟩ := Prod.mk.inj (Except.ok.inj hout)
          rcases transmit_cases ht with ⟨rfl, -⟩ | ⟨m, e, -, -, -, rfl⟩ |
            ⟨m, e, block, rest, air, -, he, -, rfl⟩
          · exact h
          · exact ⟨h.encoders, h.queued, h.unflushed⟩
          · refine ⟨by rw [List.length_set, h.encoders], h.queued, fun e' he' hflushed ↦ ?_⟩
            rcases List.mem_or_eq_of_mem_set he' with he' | rfl
            · exact h.unflushed e' he' hflushed
            · exact h.unflushed e (List.mem_of_getElem? he) hflushed
      | receive rt fcs curTime =>
          obtain ⟨t, ht, hout⟩ := bind_eq_ok.mp hstep
          obtain ⟨-, rfl⟩ := Prod.mk.inj (Except.ok.inj hout)
          rcases receive_cases ht with ⟨rfl, -⟩ | ⟨frame, air, inqueue, -, rfl⟩
          · exact h
          · exact ⟨h.encoders, h.queued, h.unflushed⟩
      | decode =>
          obtain ⟨t, ht, hout⟩ := bind_eq_ok.mp hstep
          obtain ⟨-, rfl⟩ := Prod.mk.inj (Except.ok.inj hout)
          rcases decode_cases ht with ⟨rfl, -⟩ | ⟨m, rest, decoders, decoding, -, rfl⟩
          · exact h
          · exact ⟨h.encoders, h.queued, h.unflushed⟩
      | finish =>
          obtain ⟨t, ht, hout⟩ := bind_eq_ok.mp hstep
          obtain ⟨-, rfl⟩ := Prod.mk.inj (Except.ok.inj hout)
          rcases finish_cases ht with ⟨rfl, -⟩ | ⟨i, -, rfl⟩ |
            ⟨i, d, block, rest, sendQueue, -, -, -, rfl⟩
          · exact h
          · exact ⟨h.encoders, h.queued, h.unflushed⟩
          · exact ⟨h.encoders, h.queued, h.unflushed⟩
      | write =>
          obtain ⟨-, rfl⟩ := Prod.mk.inj (Except.ok.inj hstep)
          exact ⟨h.encoders, h.queued, h.unflushed⟩

/-! ## Each change lowers the rank -/

/-- The rank of a state in which nothing has changed for the encoders. -/
theorem rank_lt_of_downstream (hout : s'.outqueue = s.outqueue) (henc : s'.encoders = s.encoders)
    (hsending : s'.sending = s.sending)
    (h : toLex (s'.air.length, toLex (s'.inqueue.size, toLex (decoded s', s'.sendQueue.size))) <
      toLex (s.air.length, toLex (s.inqueue.size, toLex (decoded s, s.sendQueue.size)))) :
    rank s' < rank s := by
  have hencoded : encoded s' = encoded s := by rw [encoded, encoded, hsending, henc]
  rw [rank, rank, hout, henc, hencoded]
  exact .right _ (.right _ (.right _ (.right _ (.right _ h))))

/-- A flush is put into the output queue. -/
theorem rank_push {m : Message} (hm : m.msg = []) (hunflushed : unflushed s.encoders m.enc = true)
    (hlt : s.outqueue.size < s.outqueue.maxSize) :
    rank { s with outqueue := { s.outqueue with queue := s.outqueue.queue ++ [m] } } < rank s := by
  have hbefore :=
    before_concat (p := fun m ↦ unflushed s.encoders m.enc) hunflushed s.outqueue.queue
  have hroom : s.outqueue.maxSize - (s.outqueue.queue ++ [m]).length <
      s.outqueue.maxSize - s.outqueue.size := by
    rw [SharedQueue.size] at hlt ⊢
    rw [List.length_append, List.length_singleton]
    omega
  simp only [rank, SharedQueue.size, upToLast_concat hm]
  refine .right _ (.right _ ?_)
  rcases hbefore.lt_or_eq with hlt' | heq
  · exact .left _ _ hlt'
  · rw [heq]
    exact .right _ (.left _ _ hroom)

/-- A message goes into its encoder. -/
theorem rank_take {m : Message} {rest : List Message} {e e' : FECEncoder}
    (hqueue : s.outqueue.queue = m :: rest) (he : s.encoders[m.enc]? = some e)
    (hflush : m.msg = [] → e'.isFlushed = true) :
    rank { s with
      outqueue := { s.outqueue with queue := rest }
      encoders := s.encoders.set m.enc e'
      sending := some m } < rank s := by
  simp only [rank, hqueue]
  rcases upToLast_cons m rest with hlt | ⟨hempty, hzero, hrest⟩
  · exact .left _ _ hlt
  rw [hzero, hrest]
  refine .right _ ?_
  have hflushed := hflush hempty
  cases hold : e.isFlushed with
  | false =>
      refine .left _ _ ?_
      rw [countP_set he, hold, hflushed]
      have hpos : 0 < s.encoders.countP (!·.isFlushed) :=
        List.countP_pos_iff.mpr ⟨e, List.mem_of_getElem? he, by rw [hold]; rfl⟩
      simpa using hpos
  | true =>
      have hsame : e'.isFlushed = e.isFlushed := hflushed.trans hold.symm
      rw [countP_set_same he hsame]
      refine .right _ (.left _ _ ?_)
      simp only [unflushed_set he hsame, before, unflushed_of_getElem? he, hold, Bool.not_true,
        Bool.false_eq_true, if_false]
      exact Nat.lt_succ_self _

/-- A block comes out of its encoder, or there is none left. -/
theorem rank_transmit {pad2 now : UInt8} (htransmit : c.transmit s pad2 now = .ok s') :
    s' = s ∧ s.sending = none ∨ rank s' < rank s := by
  rcases transmit_cases htransmit with hidle | ⟨m, e, hsending, he, hout, rfl⟩ |
    ⟨m, e, block, rest, air, hsending, he, hout, rfl⟩
  · exact .inl hidle
  · right
    refine .right _ (.right _ (.right _ (.right _ (.left _ _ ?_))))
    change 0 < encoded s
    rw [encoded, hsending]
    exact Nat.succ_pos _
  · right
    have hsame : ({ e with outBlocks := rest } : FECEncoder).isFlushed = e.isFlushed := rfl
    simp only [rank, countP_set_same he hsame, unflushed_set he hsame]
    refine .right _ (.right _ (.right _ (.right _ (.left _ _ ?_))))
    have hself := List.getElem?_set_self (a := { e with outBlocks := rest })
      (List.getElem?_eq_some_iff.mp he).1
    simp only [encoded, hsending, he, hself, Option.elim_some, FECEncoder.nOutputBlocks, hout]
    exact Nat.lt_succ_self _

/-- A frame is captured or lost. -/
theorem rank_air {frame : List UInt8} {air : List (List UInt8)} (hair : s.air = frame :: air)
    (inqueue : SharedQueue MonitorMessage) : rank { s with air, inqueue } < rank s := by
  refine rank_lt_of_downstream rfl rfl rfl (.left _ _ ?_)
  rw [hair]
  exact Nat.lt_succ_self _

/-- A message goes into its decoder. -/
theorem rank_decode (hdecode : decode s = .ok s') :
    s' = s ∧ (s.decoding.isSome ∨ s.inqueue.queue = []) ∨ rank s' < rank s := by
  rcases decode_cases hdecode with hidle | ⟨m, rest, decoders, decoding, hqueue, rfl⟩
  · exact .inl hidle
  · refine .inr (rank_lt_of_downstream rfl rfl rfl (.right _ (.left _ _ ?_)))
    rw [SharedQueue.size, SharedQueue.size, hqueue]
    exact Nat.lt_succ_self _

/-- A block comes out of its decoder, or there is none left. -/
theorem rank_finish (hfinish : finish s = .ok s') :
    s' = s ∧ s.decoding = none ∨ rank s' < rank s := by
  rcases finish_cases hfinish with hidle | ⟨i, hdecoding, rfl⟩ |
    ⟨i, d, block, rest, sendQueue, hdecoding, hd, hout, rfl⟩
  · exact .inl hidle
  · refine .inr (rank_lt_of_downstream rfl rfl rfl (.right _ (.right _ (.left _ _ ?_))))
    change 0 < decoded s
    rw [decoded, hdecoding]
    exact Nat.succ_pos _
  · refine .inr (rank_lt_of_downstream rfl rfl rfl (.right _ (.right _ (.left _ _ ?_))))
    have hself := List.getElem?_set_self (a := { d with outBlocks := rest })
      (List.getElem?_eq_some_iff.mp hd).1
    simp only [decoded, hdecoding, hd, hself, Option.elim_some, hout]
    exact Nat.lt_succ_self _

/-- A packet is written. -/
theorem rank_write (s : BridgeState) :
    (write s).2 = s ∧ s.sendQueue.queue = [] ∨ rank (write s).2 < rank s := by
  rw [write, SharedQueue.tryPop]
  cases hqueue : s.sendQueue.queue with
  | nil => exact .inl ⟨rfl, rfl⟩
  | cons p rest =>
      refine .inr (rank_lt_of_downstream rfl rfl rfl (.right _ (.right _ (.right _ ?_))))
      rw [SharedQueue.size, SharedQueue.size, hqueue]
      exact Nat.lt_succ_self _

end Bridge

end WfbBridge
