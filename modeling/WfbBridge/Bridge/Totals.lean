import Mathlib
import WfbBridge.Bridge.Links
import WfbBridge.Decoder.Basic
import WfbBridge.LogThread

/-!
# The statistics of the receiver

`fec_decode_thread` adds to `TransferStats` what the decoder of a port has counted since the last
message for that port.  The counters of a decoder are a `size_t` each, those of `TransferStats`
have 32 bits.

The thread is modelled with any way of rebuilding lost blocks in the place of `fec_decode` and of
what `decode` does around it, since what is in a rebuilt block does not matter
here.  With `decodeBlocks` it is the decoder itself.
-/

namespace WfbBridge

open Checked

/-! ## `fec_decode_thread` -/

/-- The difference of two counters, narrowed to 32 bits. -/
def counterDiff (cur prev : ℕ) : UInt32 := (UInt64.ofNat cur - UInt64.ofNat prev).toUInt32

namespace TransferStats

variable {F : Type} (average : F → ℤ → F)

/-- `add`. -/
def add (t : TransferStats F) (cur prev : FECDecoderStats) : TransferStats F :=
  { t with
    seq := t.seq + counterDiff cur.totalBlocks prev.totalBlocks
    blocks := t.blocks + counterDiff cur.totalPackets prev.totalPackets
    bytes := t.bytes + counterDiff cur.bytes prev.bytes
    blockErrors := t.blockErrors + counterDiff cur.droppedPackets prev.droppedPackets
    seqErrors := t.seqErrors + counterDiff cur.droppedBlocks prev.droppedBlocks }

/-- `add_rssi`; `average` is the moving average. -/
def addRssi (t : TransferStats F) (rssi : ℤ) : TransferStats F :=
  { t with rssi := average t.rssi rssi }

/-- `add_latency`. -/
def addLatency (t : TransferStats F) (latency : ℤ) : TransferStats F :=
  { t with latency := average t.latency latency }

end TransferStats

/-- A message as `fec_decode_thread` takes it from the queue, with the two numbers it averages. -/
structure DecodeInput where
  msg : MonitorMessage
  rssi : ℤ
  latencyMs : ℤ

/-- The decoders, their statistics when they were last added up, and the sums. -/
structure DecodeThread (F : Type) where
  decoders : List FECDecoder := List.replicate rawSocketNPorts {}
  prevDecStats : List FECDecoderStats := List.replicate rawSocketNPorts {}
  stats : TransferStats F

namespace DecodeThread

variable {F : Type} (average : F → ℤ → F)

/-- The averages are taken over messages with data and a signal. -/
def averaged (stats : TransferStats F) (i : DecodeInput) : TransferStats F :=
  if i.msg.data ≠ [] ∧ -100 < i.rssi then
    (stats.addRssi average i.rssi).addLatency average i.latencyMs
  else stats

/-- A turn of the loop, with the blocks whose data go to the output queue. -/
def turn (s : DecodeThread F) :
    Rebuild × DecodeInput → Except Fault (List FECBlock × DecodeThread F)
  | (rebuild, i) =>
      match decoderIdx i.msg with
      | none => .ok ([], { s with stats := averaged average s.stats i })
      | some port => do
          let dec ← readAt .index s.decoders port
          let dec ← dec.addBlock i.msg.data rebuild
          let prev ← readAt .index s.prevDecStats port
          .ok ((dec.outBlocks.map Prod.fst).filter fun block ↦ 0 < block.length,
            { decoders := s.decoders.set port { dec with outBlocks := [] }
              prevDecStats := s.prevDecStats.set port dec.stats
              stats := (averaged average s.stats i).add dec.stats prev })

/-- The sum of a counter over all decoders. -/
def total (f : FECDecoderStats → ℕ) (s : DecodeThread F) : ℕ :=
  (s.decoders.map fun d ↦ f d.stats).sum

/-- The number of messages for the ports of the bridge. -/
def messagesFor (turns : List (Rebuild × DecodeInput)) : ℕ :=
  turns.countP fun t ↦ (decoderIdx t.2.msg).isSome

/-- Their sizes. -/
def bytesFor (turns : List (Rebuild × DecodeInput)) : ℕ :=
  ((turns.filter fun t ↦ (decoderIdx t.2.msg).isSome).map fun t ↦ t.2.msg.data.length).sum

/-- The counters of `TransferStats` are the sums over the decoders, modulo `2 ^ 32`. -/
structure AddsUp (turns : List (Rebuild × DecodeInput)) (s : DecodeThread F) : Prop where
  seq : s.stats.seq.toNat = s.total FECDecoderStats.totalBlocks % 2 ^ 32
  blocks : s.stats.blocks.toNat = s.total FECDecoderStats.totalPackets % 2 ^ 32
  bytes : s.stats.bytes.toNat = s.total FECDecoderStats.bytes % 2 ^ 32
  blockErrors : s.stats.blockErrors.toNat = s.total FECDecoderStats.droppedPackets % 2 ^ 32
  seqErrors : s.stats.seqErrors.toNat = s.total FECDecoderStats.droppedBlocks % 2 ^ 32
  messages : s.stats.blocks.toNat = messagesFor turns % 2 ^ 32
  sizes : s.stats.bytes.toNat = bytesFor turns % 2 ^ 32

end DecodeThread

/-! ## What a packet adds -/

namespace FECDecoder

variable {rebuild : Rebuild} {d d' : FECDecoder} {blk : FECBlock}

/-- The two counters that every packet changes. -/
def traffic (d : FECDecoder) : ℕ × ℕ := (d.stats.totalPackets, d.stats.bytes)

theorem traffic_countBreak (h : FECHeader) : (d.countBreak h).traffic = d.traffic := by
  rw [countBreak]
  split
  · rfl
  · simp only []
    split <;> rfl

theorem traffic_enterSequence {h : FECHeader} (he : d.enterSequence h = some d') :
    d'.traffic = d.traffic := by
  rw [enterSequence] at he
  split at he
  case isTrue =>
    split at he
    case isTrue =>
      rw [← Option.some.inj he]
      exact traffic_countBreak h
    case isFalse =>
      split at he <;>
      · rw [← Option.some.inj he]
        rfl
  case isFalse =>
    split at he
    case isTrue => cases he
    case isFalse => rw [← Option.some.inj he]

theorem traffic_countSkipped (h : FECHeader) : (d.countSkipped h).traffic = d.traffic := by
  rw [countSkipped]
  split <;> rfl

theorem traffic_addDataBlock (blk : FECBlock) : (d.addDataBlock blk).traffic = d.traffic := by
  simp only [addDataBlock]
  split <;> split <;> rfl

/-- What `decode` does, once there are data blocks. -/
theorem decode_cons {b : FECBlock} {rest : List FECBlock} (hb : d.blocks = b :: rest) :
    d.decode rebuild =
      if d.blocks.length + d.fecBlocks.length < b.header.nBlocks then .ok d.loseSync
      else if b.header.nBlocks = 0 ∨ b.header.nFecBlocks = 0 then .ok d
      else rebuild d b.header >>= fun r ↦
        .ok { d.dropBlocks ((r.2.zipIdx.drop r.1).length -
            ((r.2.zipIdx.drop r.1).filter fun bi ↦ bi.1.length ≤ d.blockSize).length) with
          outBlocks := d.outBlocks ++
            (r.2.zipIdx.drop r.1).filter fun bi ↦ bi.1.length ≤ d.blockSize } := by
  rw [decode, hb]

theorem traffic_decode (h : d.decode rebuild = .ok d') : d'.traffic = d.traffic := by
  cases hb : d.blocks with
  | nil =>
      rw [decode, hb] at h
      rw [← Except.ok.inj h]
  | cons b rest =>
      rw [decode_cons hb] at h
      split at h
      case isTrue =>
        rw [← Except.ok.inj h]
        rfl
      case isFalse =>
        split at h
        case isTrue => rw [← Except.ok.inj h]
        case isFalse =>
          obtain ⟨r, -, h⟩ := bind_eq_ok.mp h
          rw [← Except.ok.inj h]
          rfl

/-- `decode` returns where blocks can be rebuilt. -/
theorem exists_decode (hrebuild : ∀ d h, ∃ r, rebuild d h = .ok r) (d : FECDecoder) :
    ∃ d', d.decode rebuild = .ok d' := by
  cases hb : d.blocks with
  | nil =>
      rw [decode, hb]
      exact ⟨_, rfl⟩
  | cons b rest =>
      rw [decode_cons hb]
      split
      case isTrue => exact ⟨_, rfl⟩
      case isFalse =>
        split
        case isTrue => exact ⟨_, rfl⟩
        case isFalse =>
          obtain ⟨r, hr⟩ := hrebuild d b.header
          rw [hr, ok_bind]
          exact ⟨_, rfl⟩

theorem traffic_addFecBlock (h : d.addFecBlock blk rebuild = .ok d') :
    d'.traffic = d.traffic := by
  simp only [addFecBlock] at h
  split at h
  case isTrue =>
    obtain ⟨e, he, h⟩ := bind_eq_ok.mp h
    have hkeep := traffic_decode he
    rw [← Except.ok.inj h]
    exact hkeep
  case isFalse =>
    rw [← Except.ok.inj h]
    rfl

/-- A packet is counted once, with its length. -/
theorem traffic_addPacket (h : d.addPacket blk rebuild = .ok d') :
    d'.traffic = (d.stats.totalPackets + 1, d.stats.bytes + blk.pktLength) := by
  rw [addPacket] at h
  split at h
  case isTrue =>
    rw [← Except.ok.inj h]
    rfl
  case isFalse =>
    cases henter : (d.countPacket blk.pktLength).enterSequence blk.header with
    | none =>
        rw [henter] at h
        rw [← Except.ok.inj h]
        rfl
    | some e =>
        rw [henter] at h
        have he :
            (({ e with prevHeader := blk.header } : FECDecoder).countSkipped blk.header).traffic =
              (d.countPacket blk.pktLength).traffic := by
          rw [traffic_countSkipped, ← traffic_enterSequence henter]
          rfl
        simp only [] at h
        split at h
        case isTrue =>
          rw [← Except.ok.inj h, traffic_addDataBlock]
          exact he
        case isFalse => exact (traffic_addFecBlock h).trans he

theorem traffic_addBlock {buf : List UInt8} (h : d.addBlock buf rebuild = .ok d') :
    d'.traffic = (d.stats.totalPackets + 1, d.stats.bytes + u16 buf.length) := by
  obtain ⟨blk, hblk, h⟩ := bind_eq_ok.mp h
  rw [FECBlock.ofPacket] at hblk
  split at hblk
  case isTrue =>
    rw [traffic_addPacket h, ← Except.ok.inj hblk]
    rfl
  case isFalse => cases hblk

/-- Nothing fails where blocks can be rebuilt. -/
theorem exists_addBlock (hrebuild : ∀ d h, ∃ r, rebuild d h = .ok r) (d : FECDecoder)
    {buf : List UInt8} (h6 : 6 ≤ buf.length) (hle : buf.length ≤ 65535) :
    ∃ d', d.addBlock buf rebuild = .ok d' := by
  have hu : u16 buf.length = buf.length := u16_of_lt (by omega)
  rw [addBlock, FECBlock.ofPacket, dif_pos (hu.symm ▸ h6), ok_bind, addPacket]
  split
  case isTrue => exact ⟨_, rfl⟩
  case isFalse =>
    split
    case h_1 => exact ⟨_, rfl⟩
    case h_2 =>
      simp only []
      split
      case isTrue => exact ⟨_, rfl⟩
      case isFalse =>
        simp only [addFecBlock]
        split
        case isTrue =>
          obtain ⟨e, he⟩ := exists_decode hrebuild _
          rw [he, ok_bind]
          exact ⟨_, rfl⟩
        case isFalse => exact ⟨_, rfl⟩

end FECDecoder

/-! ## The sums -/

/-- Replacing an entry changes the sum by the difference. -/
theorem sum_set_add {l : List ℕ} {i x y : ℕ} (h : l[i]? = some y) :
    (l.set i x).sum + y = l.sum + x := by
  induction l generalizing i with
  | nil => cases h
  | cons a l ih =>
      cases i with
      | zero =>
          obtain rfl := Option.some.inj h
          rw [List.set_cons_zero, List.sum_cons, List.sum_cons]
          omega
      | succ i =>
          have hl := ih h
          rw [List.set_cons_succ, List.sum_cons, List.sum_cons]
          omega

theorem counterDiff_eq (cur prev : ℕ) :
    counterDiff cur prev = UInt32.ofNat cur - UInt32.ofNat prev := by
  rw [counterDiff, UInt64.toUInt32_sub, UInt64.toUInt32_ofNat', UInt64.toUInt32_ofNat']

/-- Adding the difference to the narrowed sum gives the narrowed new sum. -/
theorem ofNat_add_counterDiff {sum sum' cur prev : ℕ} (h : sum' + prev = sum + cur) :
    UInt32.ofNat sum + counterDiff cur prev = UInt32.ofNat sum' := by
  have hcast : UInt32.ofNat sum' + UInt32.ofNat prev = UInt32.ofNat sum + UInt32.ofNat cur := by
    rw [← UInt32.ofNat_add, ← UInt32.ofNat_add, h]
  rw [counterDiff_eq]
  grind

namespace DecodeThread

variable {F : Type} {average : F → ℤ → F}

theorem total_set {s : DecodeThread F} {port : ℕ} {old : FECDecoder} (new : FECDecoder)
    (hold : s.decoders[port]? = some old) (f : FECDecoderStats → ℕ) :
    ((s.decoders.set port new).map fun d ↦ f d.stats).sum + f old.stats =
      s.total f + f new.stats := by
  rw [List.map_set]
  refine sum_set_add ?_
  rw [List.getElem?_map, hold]
  rfl

/-- The averages leave the counters alone. -/
theorem averaged_counters (average : F → ℤ → F) (stats : TransferStats F) (i : DecodeInput) :
    (averaged average stats i).seq = stats.seq ∧ (averaged average stats i).blocks = stats.blocks ∧
      (averaged average stats i).bytes = stats.bytes ∧
      (averaged average stats i).blockErrors = stats.blockErrors ∧
      (averaged average stats i).seqErrors = stats.seqErrors := by
  rw [averaged]
  split <;> exact ⟨rfl, rfl, rfl, rfl, rfl⟩

/-- A turn with a message for a port of the bridge. -/
theorem turn_some {s s' : DecodeThread F} {rebuild : Rebuild} {i : DecodeInput} {port : ℕ}
    {out : List FECBlock} (hport : decoderIdx i.msg = some port)
    (h : s.turn average (rebuild, i) = .ok (out, s')) :
    ∃ old new prev, s.decoders[port]? = some old ∧ old.addBlock i.msg.data rebuild = .ok new ∧
      s.prevDecStats[port]? = some prev ∧
      s' = { decoders := s.decoders.set port { new with outBlocks := [] }
             prevDecStats := s.prevDecStats.set port new.stats
             stats := (averaged average s.stats i).add new.stats prev } := by
  simp only [turn, hport] at h
  obtain ⟨old, hold, h⟩ := bind_eq_ok.mp h
  obtain ⟨new, hnew, h⟩ := bind_eq_ok.mp h
  obtain ⟨prev, hprev, h⟩ := bind_eq_ok.mp h
  obtain ⟨-, hs'⟩ := Prod.mk.inj (Except.ok.inj h)
  exact ⟨old, new, prev, readAt_eq_ok.mp hold, hnew, readAt_eq_ok.mp hprev, hs'.symm⟩

/-- The snapshots are the counters of the decoders, and the narrowed sums are in `TransferStats`. -/
structure Inv (turns : List (Rebuild × DecodeInput)) (s : DecodeThread F) : Prop where
  length : s.decoders.length = rawSocketNPorts
  prev : s.prevDecStats = s.decoders.map FECDecoder.stats
  seq : s.stats.seq = UInt32.ofNat (s.total FECDecoderStats.totalBlocks)
  blocks : s.stats.blocks = UInt32.ofNat (s.total FECDecoderStats.totalPackets)
  bytes : s.stats.bytes = UInt32.ofNat (s.total FECDecoderStats.bytes)
  blockErrors : s.stats.blockErrors = UInt32.ofNat (s.total FECDecoderStats.droppedPackets)
  seqErrors : s.stats.seqErrors = UInt32.ofNat (s.total FECDecoderStats.droppedBlocks)
  messages : s.total FECDecoderStats.totalPackets = messagesFor turns
  sizes : s.total FECDecoderStats.bytes = bytesFor turns

namespace Inv

variable {turns : List (Rebuild × DecodeInput)} {s : DecodeThread F}

theorem init [Zero F] (name : List Char) :
    Inv [] ({ stats := (StatsObject.new name (0 : F)).status } : DecodeThread F) :=
  ⟨rfl, rfl, rfl, rfl, rfl, rfl, rfl, rfl, rfl⟩

theorem addsUp (h : Inv turns s) : AddsUp turns s where
  seq := by rw [h.seq, UInt32.toNat_ofNat']
  blocks := by rw [h.blocks, UInt32.toNat_ofNat']
  bytes := by rw [h.bytes, UInt32.toNat_ofNat']
  blockErrors := by rw [h.blockErrors, UInt32.toNat_ofNat']
  seqErrors := by rw [h.seqErrors, UInt32.toNat_ofNat']
  messages := by rw [h.blocks, UInt32.toNat_ofNat', h.messages]
  sizes := by rw [h.bytes, UInt32.toNat_ofNat', h.sizes]

theorem turn (h : Inv turns s) {t : Rebuild × DecodeInput} (hsize : t.2.msg.data.length ≤ 65535)
    {out : List FECBlock} {s' : DecodeThread F} (hturn : s.turn average t = .ok (out, s')) :
    Inv (turns ++ [t]) s' := by
  obtain ⟨rebuild, i⟩ := t
  change i.msg.data.length ≤ 65535 at hsize
  obtain ⟨hseq, hblocks, hbytes, hberr, hserr⟩ := averaged_counters average s.stats i
  cases hport : decoderIdx i.msg with
  | none =>
      simp only [DecodeThread.turn, hport] at hturn
      obtain ⟨-, rfl⟩ := Prod.mk.inj (Except.ok.inj hturn)
      have hmessages : messagesFor (turns ++ [(rebuild, i)]) = messagesFor turns := by
        simp [messagesFor, hport]
      have hsizes : bytesFor (turns ++ [(rebuild, i)]) = bytesFor turns := by
        simp [bytesFor, hport]
      exact ⟨h.length, h.prev, hseq.trans h.seq, hblocks.trans h.blocks, hbytes.trans h.bytes,
        hberr.trans h.blockErrors, hserr.trans h.seqErrors, h.messages.trans hmessages.symm,
        h.sizes.trans hsizes.symm⟩
  | some port =>
      obtain ⟨old, new, prev, hold, hnew, hprev, rfl⟩ := turn_some hport hturn
      have hsnapshot : prev = old.stats := by
        rw [h.prev, List.getElem?_map, hold] at hprev
        exact (Option.some.inj hprev).symm
      subst hsnapshot
      obtain ⟨hpackets, hlen⟩ := Prod.mk.inj (FECDecoder.traffic_addBlock hnew)
      have htotal := total_set { new with outBlocks := [] } hold
      have hmessages : messagesFor (turns ++ [(rebuild, i)]) = messagesFor turns + 1 := by
        simp [messagesFor, hport]
      have hsizes : bytesFor (turns ++ [(rebuild, i)]) = bytesFor turns + i.msg.data.length := by
        simp [bytesFor, hport]
      refine ⟨?_, ?_, ?_, ?_, ?_, ?_, ?_, ?_, ?_⟩
      · rw [List.length_set]
        exact h.length
      · rw [h.prev, List.map_set]
      · exact (congrArg (· + _) (hseq.trans h.seq)).trans (ofNat_add_counterDiff (htotal _))
      · exact (congrArg (· + _) (hblocks.trans h.blocks)).trans (ofNat_add_counterDiff (htotal _))
      · exact (congrArg (· + _) (hbytes.trans h.bytes)).trans (ofNat_add_counterDiff (htotal _))
      · exact (congrArg (· + _) (hberr.trans h.blockErrors)).trans
          (ofNat_add_counterDiff (htotal _))
      · exact (congrArg (· + _) (hserr.trans h.seqErrors)).trans (ofNat_add_counterDiff (htotal _))
      · have hsum := htotal FECDecoderStats.totalPackets
        rw [h.messages] at hsum
        rw [hmessages, total]
        simp only at hsum ⊢
        omega
      · have hsum := htotal FECDecoderStats.bytes
        rw [h.sizes] at hsum
        rw [u16_of_lt (Nat.lt_succ_of_le hsize)] at hlen
        rw [hsizes, total]
        simp only at hsum ⊢
        omega

/-- A turn returns where blocks can be rebuilt. -/
theorem exists_turn (h : Inv turns s) (average : F → ℤ → F) {t : Rebuild × DecodeInput}
    (h6 : 6 ≤ t.2.msg.data.length) (hsize : t.2.msg.data.length ≤ 65535)
    (hrebuild : ∀ d h, ∃ r, t.1 d h = .ok r) :
    ∃ out s', s.turn average t = .ok (out, s') := by
  obtain ⟨rebuild, i⟩ := t
  cases hport : decoderIdx i.msg with
  | none =>
      simp only [DecodeThread.turn, hport]
      exact ⟨_, _, rfl⟩
  | some port =>
      have hlt : port < s.decoders.length := by
        rw [decoderIdx] at hport
        split at hport
        case isTrue => cases hport
        case isFalse hlt =>
          rw [← Option.some.inj hport, h.length]
          exact Nat.not_le.mp hlt
      have hlt' : port < s.prevDecStats.length := by rwa [h.prev, List.length_map]
      obtain ⟨new, hnew⟩ := FECDecoder.exists_addBlock hrebuild s.decoders[port] h6 hsize
      simp only [DecodeThread.turn, hport, readAt_of_lt _ hlt, readAt_of_lt _ hlt', ok_bind, hnew]
      exact ⟨_, _, rfl⟩

end Inv

/-- After every message the statistics are the sums over the decoders.  The thread only stops where
`decode` leaves its arrays. -/
theorem stats_add_up [Zero F] (average : F → ℤ → F) (name : List Char)
    (turns : List (Rebuild × DecodeInput))
    (hsize : ∀ t ∈ turns, 6 ≤ t.2.msg.data.length ∧ t.2.msg.data.length ≤ 65535) :
    (∀ outs s, Run.run (turn average) { stats := (StatsObject.new name (0 : F)).status } turns =
      .ok (outs, s) → AddsUp turns s) ∧
    ((∀ t ∈ turns, ∀ d h, ∃ r, t.1 d h = .ok r) → ∃ outs s,
      Run.run (turn average) { stats := (StatsObject.new name (0 : F)).status } turns =
        .ok (outs, s)) := by
  constructor
  · intro outs s hrun
    refine Inv.addsUp (Run.inv_of_run (P := Inv) (Inv.init name) ?_ hrun)
    rintro pre t s out s' ⟨post, rfl⟩ hinv hturn
    exact hinv.turn (hsize t (by simp)).2 hturn
  · intro hrebuild
    obtain ⟨outs, s, hrun, -⟩ := Run.run_inv (turn average)
      { stats := (StatsObject.new name (0 : F)).status } turns (fun pre _ s ↦ Inv pre s)
        (Inv.init name) (by
        rintro pre t outs s ⟨post, rfl⟩ hinv
        obtain ⟨h6, hle⟩ := hsize t (by simp)
        obtain ⟨out, s', hturn⟩ := hinv.exists_turn average h6 hle (hrebuild t (by simp))
        exact ⟨out, s', hturn, hinv.turn hle hturn⟩)
    exact ⟨outs, s, hrun⟩

/-- Two packets of a link without FEC on port 3,
and between them one on port 5 and one for no port. -/
def fourMessages : List (Rebuild × DecodeInput) :=
  [([1, 0, 0, 0, 0, 0], 3), ([1, 0, 0, 0, 1, 0, 9], 5), ([1, 0, 0, 0, 0, 0], 17),
    ([3, 0, 0, 0, 0, 0], 3)].map fun m ↦
      (FECDecoder.decodeBlocks, ⟨{ data := m.1, port := m.2, linkType := .dataLink }, -40, 3⟩)

/-- Three of them are counted, with 19 bytes;
the second packet on port 3 shows that one was lost. -/
theorem stats_add_up_four : ∃ outs s,
    Run.run (turn fun (x : ℕ) _ ↦ x) { stats := (StatsObject.new [] 0).status } fourMessages =
      .ok (outs, s) ∧ AddsUp fourMessages s ∧ s.stats.blocks = 3 ∧ s.stats.bytes = 19 ∧
      s.stats.blockErrors = 1 := by
  have hrun : ∃ r, Run.run (turn fun (x : ℕ) _ ↦ x) { stats := (StatsObject.new [] 0).status }
      fourMessages = .ok r ∧ r.2.stats.blocks = 3 ∧ r.2.stats.bytes = 19 ∧
        r.2.stats.blockErrors = 1 :=
    ⟨_, rfl, by decide, by decide, by decide⟩
  obtain ⟨⟨outs, s⟩, hrun, hstats⟩ := hrun
  exact ⟨outs, s, hrun,
    (stats_add_up (fun (x : ℕ) _ ↦ x) [] fourMessages (by decide)).1 outs s hrun, hstats⟩

end DecodeThread

end WfbBridge
