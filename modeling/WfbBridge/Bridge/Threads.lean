import Mathlib
import WfbBridge.Bridge.Links
import WfbBridge.Decoder.Basic
import WfbBridge.SharedQueue

/-!
# The threads of the bridge

From the TUN device of one side to the TUN device of the other: `tun_raw_thread` and
`raw_send_thread` of the sender, and the receive thread, `fec_decode_thread` and the TUN output
thread of the receiver.  They share the queues, and a step of a thread goes from one access of a
queue to the next one, so that an interleaving is a list of steps (`Op`).  A thread that would
wait at an empty queue does nothing.

The loop of `tun_raw_thread` that flushes the encoders after a timeout is cut into its turns,
which may come at any time.  The statistics are left out.
-/

namespace WfbBridge

open Checked

/-- `TUNInterface::read`: the data that fits into the buffer. -/
def TUNInterface.read (pkt : List UInt8) : List UInt8 := pkt.take 2048

/-- `TUNInterface::read`: the port in the header of an IP packet with UDP or TCP. -/
def TUNInterface.ipPort (buf : List UInt8) : ℕ :=
  let protocol := buf.getD 9 0
  if (protocol = 0x11 ∨ protocol = 0x06) ∧ 23 < buf.length then
    (buf.getD 22 0).toNat <<< 8 ||| (buf.getD 23 0).toNat
  else 0

/-- `is_fec_block()`. -/
def FECBlock.isFecBlock (b : FECBlock) : Prop := ¬b.isDataBlock

instance (b : FECBlock) : Decidable b.isFecBlock := inferInstanceAs (Decidable (¬_))

/-- `n_output_blocks`. -/
def FECEncoder.nOutputBlocks (e : FECEncoder) : ℕ := e.outBlocks.length

/-- `raw_send_thread` with a message: the encoder takes it, or is flushed. -/
def FECEncoder.handle (e : FECEncoder) (msg : List UInt8) : Except Fault FECEncoder :=
  if msg = [] then e.flush else e.push msg

/-- What does not change while the threads run. -/
structure Bridge where
  socket : RawSendSocket
  maxQueueSize : ℕ
  portMsgLut : List (ℕ × Message)

/-- What the threads share, and the message or the port that a thread is working on.  `air` are the
frames between the two sides, without what belongs to the drivers.  Every packet in `sendQueue` has
the port of its decoder beside it, which nothing reads. -/
structure BridgeState where
  encoders : List FECEncoder
  outqueue : SharedQueue Message
  sending : Option Message := none
  air : List (List UInt8) := []
  inqueue : SharedQueue MonitorMessage
  decoders : List FECDecoder := List.replicate rawSocketNPorts {}
  decoding : Option ℕ := none
  sendQueue : SharedQueue (ℕ × List UInt8) := .new 1000

namespace Bridge

/-- A step of a thread. -/
inductive Op where
  /-- `tun_raw_thread` reads a packet. -/
  | read (pkt : List UInt8) (hne : pkt ≠ [])
  /-- `tun_raw_thread`, after a timeout, comes to an entry of the table. -/
  | flush (ipPort : ℕ)
  /-- `raw_send_thread` pops a message. -/
  | take
  /-- `raw_send_thread` comes to the next block of the encoder. -/
  | transmit (pad2 now : UInt8)
  /-- The receive thread captures the next frame. -/
  | receive (rt fcs : List UInt8) (curTime : ℕ)
  /-- `fec_decode_thread` pops a message. -/
  | decode
  /-- `fec_decode_thread` comes to the next block of the decoder. -/
  | finish
  /-- The TUN output thread writes a packet. -/
  | write

variable (c : Bridge) (s : BridgeState)

/-- The prototype of a message. -/
def proto (ipPort : ℕ) : Option Message :=
  (SortedMap.find ipPort c.portMsgLut).or (SortedMap.find 0 c.portMsgLut)

/-- A packet is read. -/
def read (pkt : List UInt8) : BridgeState :=
  let msg := TUNInterface.read pkt
  let ipPort := TUNInterface.ipPort msg
  match c.proto ipPort with
  | some proto => { s with outqueue := s.outqueue.push (proto.copy msg ipPort) }
  -- a warning is logged
  | none => s

/-- A turn of the loop over the table: encoders that are not flushed are. -/
def flush (ipPort : ℕ) : Except Fault BridgeState :=
  match SortedMap.find ipPort c.portMsgLut with
  | some proto => do
      let enc ← readAt .index s.encoders proto.enc
      if enc.isFlushed then .ok s
      else .ok { s with outqueue := s.outqueue.push (proto.copy [] proto.ipPort) }
  | none => .ok s

/-- The next message goes into its encoder. -/
def take : Except Fault BridgeState :=
  match s.sending, s.outqueue.tryPop with
  | none, (some msg, outqueue) => do
      let enc ← readAt .index s.encoders msg.enc
      let enc ← enc.handle msg.msg
      .ok { s with
        outqueue
        encoders := s.encoders.set msg.enc enc
        sending := some msg }
  | _, _ => .ok s

/-- FEC blocks are dropped when the link is slower than the data rate. -/
def withholds (outqueue : SharedQueue Message) (enc : FECEncoder) (block : FECBlock) : Prop :=
  block.isFecBlock ∧ c.maxQueueSize < outqueue.size + enc.nOutputBlocks

instance (outqueue : SharedQueue Message) (enc : FECEncoder) (block : FECBlock) :
    Decidable (c.withholds outqueue enc block) := inferInstanceAs (Decidable (_ ∧ _))

/-- The next block of the encoder is sent.  The driver takes the radiotap header off. -/
def transmit (pad2 now : UInt8) : Except Fault BridgeState :=
  match s.sending with
  | none => .ok s
  | some msg => do
      let enc ← readAt .index s.encoders msg.enc
      match enc.getBlock with
      | (none, _) => .ok { s with sending := none }
      | (some block, enc) =>
          let s := { s with encoders := s.encoders.set msg.enc enc }
          if c.withholds s.outqueue enc block then .ok s
          else do
            let frame? ← c.socket.send pad2 now block.packet msg.port msg.opts.linkType
              msg.opts.dataRate
            .ok { s with
              air := s.air ++ frame?.toList.map
                fun frame ↦ frame.drop (c.socket.radiotapHeader pad2 msg.opts.dataRate).length }

/-- The next frame is captured by the other side, with a radiotap header and an FCS. -/
def receive (rt fcs : List UInt8) (curTime : ℕ) : Except Fault BridgeState :=
  match s.air with
  | [] => .ok s
  | frame :: air =>
      let cap := rt ++ frame ++ fcs
      let s := { s with air }
      if captureFilter (!c.socket.ground) cap then do
        let msg? ← RawReceiveSocket.receive curTime (.frame cap cap.length)
        match msg? with
        | some msg =>
            if msg.data.isEmpty then .ok s
            else .ok { s with inqueue := s.inqueue.push msg }
        -- an error return: the threads are started again
        | none => .ok s
      else .ok s

/-- The next message goes into its decoder. -/
def decode : Except Fault BridgeState :=
  match s.decoding, s.inqueue.tryPop with
  | none, (some msg, inqueue) =>
      match decoderIdx msg with
      | none => .ok { s with inqueue }
      | some port => do
          let dec ← readAt .index s.decoders port
          let dec ← dec.addBlock msg.data
          .ok { s with
            inqueue
            decoders := s.decoders.set port dec
            decoding := some port }
  | _, _ => .ok s

/-- The next block of the decoder is passed on. -/
def finish : Except Fault BridgeState :=
  match s.decoding with
  | none => .ok s
  | some port => do
      let dec ← readAt .index s.decoders port
      match dec.getBlock with
      | (none, _) => .ok { s with decoding := none }
      | (some block, dec) =>
          let s := { s with decoders := s.decoders.set port dec }
          if 0 < block.length then
            match block.payload with
            | some pkt => .ok { s with sendQueue := s.sendQueue.push (port, pkt) }
            | none => .error .bytes
          else .ok s

/-- The next packet is written. -/
def write : Option (ℕ × List UInt8) × BridgeState :=
  match s.sendQueue.tryPop with
  | (pkt?, sendQueue) => (pkt?, { s with sendQueue })

/-- One step, with the packet that is written. -/
def step : Op → Except Fault (Option (ℕ × List UInt8) × BridgeState)
  | .read pkt _ => .ok (none, c.read s pkt)
  | .flush ipPort => do .ok (none, ← c.flush s ipPort)
  | .take => do .ok (none, ← take s)
  | .transmit pad2 now => do .ok (none, ← c.transmit s pad2 now)
  | .receive rt fcs curTime => do .ok (none, ← c.receive s rt fcs curTime)
  | .decode => do .ok (none, ← decode s)
  | .finish => do .ok (none, ← finish s)
  | .write => .ok (write s)

/-- The packets that are read. -/
def reads (ops : List Op) : List (List UInt8) :=
  ops.filterMap fun
    | .read pkt _ => some (TUNInterface.read pkt)
    | _ => none

/-- The packets that are written, out of decoder `i`. -/
def written (i : ℕ) (outs : List (Option (ℕ × List UInt8))) : List (List UInt8) :=
  (outs.reduceOption.filter (·.1 = i)).map Prod.snd

/-- No queue is full when something is pushed, no block is withheld,
and frames are captured whole. -/
def Smooth : Op → Prop
  | .read _ _ => s.outqueue.size < s.outqueue.maxSize
  | .flush _ => s.outqueue.size < s.outqueue.maxSize
  | .transmit _ _ => ∀ msg ∈ s.sending, ∀ enc ∈ s.encoders[msg.enc]?, ∀ block ∈ enc.getBlock.1,
      ¬c.withholds s.outqueue enc.getBlock.2 block
  | .receive rt fcs _ => s.inqueue.size < s.inqueue.maxSize ∧ WellFormedRadiotap rt ∧
      fcs.length = 4 ∧ ∀ frame ∈ s.air.head?, (rt ++ frame ++ fcs).length ≤ 4096
  | .finish => s.sendQueue.size < s.sendQueue.maxSize
  | _ => True

instance : ∀ op, Decidable (c.Smooth s op)
  | .read _ _ => inferInstanceAs (Decidable (_ < _))
  | .flush _ => inferInstanceAs (Decidable (_ < _))
  | .take => isTrue trivial
  | .transmit _ _ => inferInstanceAs (Decidable (∀ _ ∈ _, ∀ _ ∈ _, ∀ _ ∈ _, ¬_))
  | .receive _ _ _ => inferInstanceAs (Decidable (_ < _ ∧ _ ∧ _ ∧ ∀ _ ∈ _, _ ≤ _))
  | .decode => isTrue trivial
  | .finish => inferInstanceAs (Decidable (_ < _))
  | .write => isTrue trivial

/-- Nothing is on the way, and the encoders are flushed. -/
structure Drained (s : BridgeState) : Prop where
  outqueue : s.outqueue.queue = []
  encoders : ∀ e ∈ s.encoders, e.isFlushed = true
  sending : s.sending = none
  air : s.air = []
  inqueue : s.inqueue.queue = []
  decoding : s.decoding = none
  sendQueue : s.sendQueue.queue = []

instance (s : BridgeState) : Decidable (Drained s) :=
  decidable_of_iff (s.outqueue.queue = [] ∧ (∀ e ∈ s.encoders, e.isFlushed = true) ∧
      s.sending = none ∧ s.air = [] ∧ s.inqueue.queue = [] ∧ s.decoding = none ∧
      s.sendQueue.queue = [])
    ⟨fun ⟨h₁, h₂, h₃, h₄, h₅, h₆, h₇⟩ ↦ ⟨h₁, h₂, h₃, h₄, h₅, h₆, h₇⟩,
      fun ⟨h₁, h₂, h₃, h₄, h₅, h₆, h₇⟩ ↦ ⟨h₁, h₂, h₃, h₄, h₅, h₆, h₇⟩⟩

end Bridge

end WfbBridge
