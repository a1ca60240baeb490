import Mathlib
import WfbBridge.Block
import WfbBridge.Fec.Code
import WfbBridge.Library.Run

/-!
# `FECDecoder`

The receiving half of `fec.cc`.  `add_block` is cut at its comments into named
parts, in the order of the source: counting the packet, the pass-through of links
without FEC, the change of sequence (`enterSequence`), the packets skipped at the
start of a sequence, and the two kinds of blocks.

Every entry of `m_out_blocks` carries, beside the block, its position in the
sequence.  The source has no such field and nothing reads it; it is there to say
which message a block is meant to be.
-/

namespace WfbBridge

open Checked

/-- `FECDecoderStats`. -/
structure FECDecoderStats where
  totalBlocks : ℕ := 0
  totalPackets : ℕ := 0
  droppedBlocks : ℕ := 0
  droppedPackets : ℕ := 0
  lostSync : ℕ := 0
  bytes : ℕ := 0
deriving DecidableEq, Repr

/-- `FECDecoder`. -/
structure FECDecoder where
  blockSize : ℕ := 0
  prevHeader : FECHeader := {}
  blocks : List FECBlock := []
  fecBlocks : List FECBlock := []
  outBlocks : List (FECBlock × ℕ) := []
  stats : FECDecoderStats := {}
deriving DecidableEq

/-- `fec_block_idx` in `decode`: the number of an FEC block. -/
def FECBlock.fecIdx (b : FECBlock) : ℕ := u8 (b.header.block + 256 - b.header.nBlocks)

/-- What `decode` makes of the blocks it holds: the first erased index and all data blocks. -/
abbrev Rebuild := FECDecoder → FECHeader → Except Fault (ℕ × List FECBlock)

namespace FECDecoder

/-- `unrolled_seq`: a sequence number below the previous one is from the next round. -/
def unrolledSeq (prev seq : ℕ) : ℕ := if seq < prev then seq + 256 else seq

/-- Add to `dropped_packets`. -/
def dropPackets (d : FECDecoder) (n : ℕ) : FECDecoder :=
  { d with stats := { d.stats with droppedPackets := d.stats.droppedPackets + n } }

/-- Add to `dropped_blocks`. -/
def dropBlocks (d : FECDecoder) (n : ℕ) : FECDecoder :=
  { d with stats := { d.stats with droppedBlocks := d.stats.droppedBlocks + n } }

/-- `++m_stats.lost_sync`. -/
def loseSync (d : FECDecoder) : FECDecoder :=
  { d with stats := { d.stats with lostSync := d.stats.lostSync + 1 } }

/-- `++m_stats.total_packets` and the bytes of the packet. -/
def countPacket (d : FECDecoder) (blockLength : ℕ) : FECDecoder :=
  { d with stats := { d.stats with
      totalPackets := d.stats.totalPackets + 1
      bytes := d.stats.bytes + blockLength } }

/-- Clear the working set. -/
def reset (d : FECDecoder) : FECDecoder := { d with blockSize := 0, blocks := [], fecBlocks := [] }

/-- Clear the working set of a sequence that has been decoded. -/
def complete (d : FECDecoder) : FECDecoder :=
  { d.reset with stats := { d.stats with totalBlocks := d.stats.totalBlocks + 1 } }

/-- Release the block: FEC is not being performed on this channel. -/
def passThrough (d : FECDecoder) (blk : FECBlock) : FECDecoder :=
  let h := blk.header
  let prev := d.prevHeader.seqNum
  let db := u16 (unrolledSeq prev h.seqNum + 65536 - prev - 1)
  { (d.dropPackets db).dropBlocks db with
    prevHeader := h, outBlocks := d.outBlocks ++ [(blk, h.block)] }

/-- The statistics of a break in the sequence. -/
def countBreak (d : FECDecoder) (h : FECHeader) : FECDecoder :=
  let ph := d.prevHeader
  let seq := unrolledSeq ph.seqNum h.seqNum
  if seq < ph.seqNum then d.loseSync
  else
    let d := d.dropBlocks (seq - ph.seqNum)
    let pbn := ph.seqNum * (h.nBlocks + h.nFecBlocks) + ph.block
    let bn := seq * (h.nBlocks + h.nFecBlocks) + h.block
    if pbn < bn then d.dropPackets (bn - pbn) else d

/-- From "are we actively processing a block?": `none` when the packet belongs to a
sequence that is over, else the decoder in which the packet is handled. -/
def enterSequence (d : FECDecoder) (h : FECHeader) : Option FECDecoder :=
  let ph := d.prevHeader
  let seq := unrolledSeq ph.seqNum h.seqNum
  if d.blockSize ≠ 0 then
    if ph.seqNum ≠ seq then some (d.countBreak h).reset
    else if h.block ≤ ph.block then some (d.dropPackets 1)
    else some (d.dropPackets (h.block - ph.block - 1))
  else if ph.seqNum = seq then none
  else some d

/-- The packets skipped at the beginning of the sequence. -/
def countSkipped (d : FECDecoder) (h : FECHeader) : FECDecoder :=
  if d.blockSize = 0 ∧ 0 < h.block then d.dropPackets h.block else d

/-- A data block. -/
def addDataBlock (d : FECDecoder) (blk : FECBlock) : FECDecoder :=
  let h := blk.header
  let d := { d with
    blockSize := max d.blockSize blk.blockSize
    blocks := d.blocks ++ [blk] }
  let d := if d.blocks.length - 1 = h.block
    then { d with outBlocks := d.outBlocks ++ [(blk, h.block)] } else d
  if d.blocks.length = h.nBlocks then d.complete else d

/-- `blocks` in `decode`: a slot for each data block of the sequence. -/
def slots (d : FECDecoder) (nBlocks : ℕ) : List (Option FECBlock) :=
  d.blocks.foldl (fun v b ↦ v.set b.header.block (some b)) (List.replicate nBlocks none)

/-- `erased_block_idxs`. -/
def erasedIdxs (slots : List (Option FECBlock)) : List ℕ :=
  (List.range slots.length).filter fun i ↦ slots[i]? = some none

/-- `fec_block_idxs`. -/
def fecIdxs (d : FECDecoder) : List ℕ := d.fecBlocks.map FECBlock.fecIdx

/-- `decode` up to the call of `fec_decode` and the blocks it leaves, with the
first erased index. -/
def decodeBlocks (d : FECDecoder) (h : FECHeader) : Except Fault (ℕ × List FECBlock) :=
  if ∃ b ∈ d.blocks, h.nBlocks ≤ b.header.block then .error .index
  else
    let slots := d.slots h.nBlocks
    match erasedIdxs slots with
    -- `erased_block_idxs[0]` is read at the end even if there is none
    | [] => .error .index
    | first :: rest => do
        let rebuilt ← FECBlock.ofHeader h d.blockSize
        let blocks := slots.map fun b ↦ b.getD rebuilt
        let bytes ← Fec.fecDecode d.blockSize (blocks.map FECBlock.fecData)
          (d.fecBlocks.map FECBlock.fecData) d.fecIdxs (first :: rest)
        .ok (first, List.zipWith (fun b bytes ↦ b.write (fecOverhead - 2) bytes) blocks bytes)

/-- `decode`; `rebuild` stands for the part of it that rebuilds blocks. -/
def decode (d : FECDecoder) (rebuild : Rebuild := decodeBlocks) : Except Fault FECDecoder :=
  match d.blocks with
  | [] => .ok d
  | b :: _ =>
      let h := b.header
      if d.blocks.length + d.fecBlocks.length < h.nBlocks then .ok d.loseSync
      else if h.nBlocks = 0 ∨ h.nFecBlocks = 0 then .ok d
      else do
        let (first, blocks) ← rebuild d h
        -- send the remainder of blocks that have a reasonable length
        let remainder := blocks.zipIdx.drop first
        let out := remainder.filter fun bi ↦ bi.1.length ≤ d.blockSize
        .ok { d.dropBlocks (remainder.length - out.length) with outBlocks := d.outBlocks ++ out }

/-- An FEC block. -/
def addFecBlock (d : FECDecoder) (blk : FECBlock) (rebuild : Rebuild := decodeBlocks) :
    Except Fault FECDecoder :=
  let h := blk.header
  let d := { d with fecBlocks := d.fecBlocks ++ [blk] }
  if d.blocks.length + d.fecBlocks.length = h.nBlocks then do
    let d ← d.decode rebuild
    .ok d.complete
  else .ok d

/-- `add_block`, once the packet has been copied into a block. -/
def addPacket (d : FECDecoder) (blk : FECBlock) (rebuild : Rebuild := decodeBlocks) :
    Except Fault FECDecoder :=
  let h := blk.header
  let d := d.countPacket blk.pktLength
  if h.nBlocks = 0 ∨ h.nFecBlocks = 0 then .ok (d.passThrough blk)
  else
    match d.enterSequence h with
    | none => .ok { d with prevHeader := h }
    | some d =>
        let d := { d with prevHeader := h }.countSkipped h
        if blk.isDataBlock then .ok (d.addDataBlock blk) else d.addFecBlock blk rebuild

/-- The decoder in which `add_block` calls `decode`, if it does. -/
def decoding (d : FECDecoder) (blk : FECBlock) : Option FECDecoder :=
  let h := blk.header
  if h.nBlocks = 0 ∨ h.nFecBlocks = 0 then none
  else
    match (d.countPacket blk.pktLength).enterSequence h with
    | none => none
    | some d =>
        let d := { d with prevHeader := h }.countSkipped h
        let d := { d with fecBlocks := d.fecBlocks ++ [blk] }
        if ¬ blk.isDataBlock ∧ d.blocks.length + d.fecBlocks.length = h.nBlocks then some d
        else none

/-- If the packet makes `decode` run, it runs in a decoder that meets `C`. -/
def WhenDecoding (C : FECDecoder → Prop) (d : FECDecoder) (pkt : List UInt8) : Prop :=
  ∀ blk d', FECBlock.ofPacket pkt = .ok blk → d.decoding blk = some d' → C d'

instance (C : FECDecoder → Prop) [DecidablePred C] (d : FECDecoder) (pkt : List UInt8) :
    Decidable (d.WhenDecoding C pkt) :=
  match h : FECBlock.ofPacket pkt with
  | .error _ => isTrue fun blk d' hblk _ ↦ by rw [h] at hblk; cases hblk
  | .ok blk =>
      decidable_of_iff (∀ d' ∈ d.decoding blk, C d')
        ⟨fun hC blk' d' hblk hd' ↦ by rw [h] at hblk; cases hblk; exact hC d' hd',
          fun hC d' hd' ↦ hC blk d' h hd'⟩

/-- `add_block`. -/
def addBlock (d : FECDecoder) (buf : List UInt8) (rebuild : Rebuild := decodeBlocks) :
    Except Fault FECDecoder := do
  let blk ← FECBlock.ofPacket buf
  d.addPacket blk rebuild

/-- `get_block`. -/
def getBlock (d : FECDecoder) : Option FECBlock × FECDecoder :=
  match d.outBlocks with
  | [] => (none, d)
  | b :: rest => (some b.1, { d with outBlocks := rest })

/-- `add_block` followed by `get_block` until the queue is empty, as
`fec_decode_thread` does with each packet. -/
def deliver (d : FECDecoder) (buf : List UInt8) :
    Except Fault (List (FECBlock × ℕ) × FECDecoder) := do
  let d ← d.addBlock buf
  .ok (d.outBlocks, { d with outBlocks := [] })

/-- A packet without FEC is passed through. -/
theorem deliver_off {d : FECDecoder} {blk : FECBlock} {pkt : List UInt8}
    (hpkt : FECBlock.ofPacket pkt = .ok blk)
    (hoff : blk.header.nBlocks = 0 ∨ blk.header.nFecBlocks = 0) :
    d.deliver pkt = .ok (d.outBlocks ++ [(blk, blk.header.block)],
      { (d.countPacket blk.pktLength).passThrough blk with outBlocks := [] }) := by
  rw [deliver, addBlock, hpkt, ok_bind, addPacket]
  simp only [if_pos hoff, ok_bind]
  rfl

end FECDecoder

end WfbBridge
