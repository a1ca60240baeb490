import Mathlib
import WfbBridge.Block
import WfbBridge.Fec.Code
import WfbBridge.Library.Run

/-!
# `FECEncoder`

The sending half of `fec.cc`.  Blocks are shared pointers in the source; they are
values here, and the one place where that matters is `encode_blocks`, which
writes to blocks it has already put into `m_out_blocks`: the model writes first
and then puts them into the queue.
-/

namespace WfbBridge

open Checked

/-- `FECEncoder`. -/
structure FECEncoder where
  seqNum : ℕ
  numBlocks : ℕ
  numFecBlocks : ℕ
  maxBlockSize : ℕ
  inBlocks : List FECBlock := []
  outBlocks : List FECBlock := []
deriving DecidableEq

namespace FECEncoder

/-- The constructor. -/
def new (numBlocks numFecBlocks maxBlockSize : ℕ) (startSeqNum : ℕ := 1) : FECEncoder :=
  { seqNum := startSeqNum, numBlocks, numFecBlocks, maxBlockSize }

/-- `++m_seq_num; if (m_seq_num == 0) ++m_seq_num;` -/
def nextSeqNum (s : ℕ) : ℕ := if u8 (s + 1) = 0 then u8 (s + 2) else u8 (s + 1)

/-- `get_next_block`. -/
def getNextBlock (e : FECEncoder) (length : ℕ) : Except Fault FECBlock :=
  FECBlock.new e.seqNum e.inBlocks.length e.numBlocks e.numFecBlocks e.maxBlockSize (u16 length)

/-- The block size of a sequence: that of its largest block. -/
def largestBlockSize (blocks : List FECBlock) : ℕ :=
  blocks.foldl (fun size b ↦ max size b.blockSize) 0

/-- `encode_blocks`. -/
def encodeBlocks (e : FECEncoder) : Except Fault FECEncoder :=
  let numBlocks := u8 e.inBlocks.length
  if numBlocks = 0 then .ok e
  else if e.numBlocks < numBlocks then .error .index
  else do
    let ins := e.inBlocks.take numBlocks
    let blockSize := largestBlockSize ins
    let dataBlocks := ins.map fun b ↦ (b.adjustBlockSize blockSize).setNBlocks numBlocks
    let fecBlocks ← (List.range e.numFecBlocks).mapM fun i ↦
      FECBlock.new e.seqNum (numBlocks + i) numBlocks e.numFecBlocks blockSize
        (u16 (blockSize + 65536 - 2))
    let coded ← Fec.fecEncode blockSize (dataBlocks.map FECBlock.fecData)
      (fecBlocks.map FECBlock.fecData)
    let fecBlocks := List.zipWith (fun b bytes ↦ b.write (fecOverhead - 2) bytes) fecBlocks coded
    .ok { e with
      seqNum := nextSeqNum e.seqNum
      inBlocks := []
      outBlocks := e.outBlocks ++ dataBlocks ++ fecBlocks }

/-- `add_block`. -/
def addBlock (e : FECEncoder) (b : FECBlock) : Except Fault FECEncoder :=
  let b := b.setBlock (u8 e.inBlocks.length)
  if e.numFecBlocks = 0 ∨ e.numBlocks = 0 then
    -- not actually encoding: just output the block
    .ok { e with outBlocks := e.outBlocks ++ [b], seqNum := nextSeqNum e.seqNum }
  else
    let e := { e with inBlocks := e.inBlocks ++ [b] }
    if 0 < e.numFecBlocks ∧ b.header.block = e.numBlocks - 1 then e.encodeBlocks else .ok e

/-- `get_block`. -/
def getBlock (e : FECEncoder) : Option FECBlock × FECEncoder :=
  match e.outBlocks with
  | [] => (none, e)
  | b :: rest => (some b, { e with outBlocks := rest })

/-- `flush`. -/
def flush (e : FECEncoder) : Except Fault FECEncoder := e.encodeBlocks

/-- `is_flushed`. -/
def isFlushed (e : FECEncoder) : Bool := e.inBlocks.isEmpty

/-- `get_next_block(len)`, the copy of a message into the block, and `add_block`. -/
def push (e : FECEncoder) (msg : List UInt8) : Except Fault FECEncoder := do
  let b ← e.getNextBlock msg.length
  let b ← b.fill msg
  e.addBlock b

/-- What a client of the encoder does. -/
inductive Op where
  | push (msg : List UInt8)
  | flush
  | get
deriving DecidableEq

/-- One operation, with the blocks it returned. -/
def step (e : FECEncoder) : Op → Except Fault (List FECBlock × FECEncoder)
  | .push msg => do
      let e ← e.push msg
      .ok ([], e)
  | .flush => do
      let e ← e.flush
      .ok ([], e)
  | .get => .ok (e.getBlock.1.toList, e.getBlock.2)

/-! ## What does not change -/

theorem encodeBlocks_maxBlockSize {e e' : FECEncoder} (h : e.encodeBlocks = .ok e') :
    e'.maxBlockSize = e.maxBlockSize := by
  simp only [encodeBlocks] at h
  split at h
  · rw [Except.ok.inj h]
  split at h
  · cases h
  · obtain ⟨fecBlocks, -, h⟩ := bind_eq_ok.mp h
    obtain ⟨coded, -, h⟩ := bind_eq_ok.mp h
    rw [← Except.ok.inj h]

theorem push_maxBlockSize {e e' : FECEncoder} {msg : List UInt8} (h : e.push msg = .ok e') :
    e'.maxBlockSize = e.maxBlockSize := by
  obtain ⟨b, -, h⟩ := bind_eq_ok.mp h
  obtain ⟨b, -, h⟩ := bind_eq_ok.mp h
  simp only [addBlock] at h
  split at h
  · rw [← Except.ok.inj h]
  split at h
  · have hmax := encodeBlocks_maxBlockSize h
    exact hmax
  · rw [← Except.ok.inj h]

theorem step_maxBlockSize {e e' : FECEncoder} {op : Op} {out : List FECBlock}
    (h : e.step op = .ok (out, e')) : e'.maxBlockSize = e.maxBlockSize := by
  cases op with
  | push msg =>
      obtain ⟨e₁, hpush, h⟩ := bind_eq_ok.mp h
      obtain ⟨-, rfl⟩ := Prod.mk.inj (Except.ok.inj h)
      exact push_maxBlockSize hpush
  | flush =>
      obtain ⟨e₁, hflush, h⟩ := bind_eq_ok.mp h
      obtain ⟨-, rfl⟩ := Prod.mk.inj (Except.ok.inj h)
      exact encodeBlocks_maxBlockSize hflush
  | get =>
      obtain ⟨-, rfl⟩ := Prod.mk.inj (Except.ok.inj h)
      rw [getBlock]
      split <;> rfl

end FECEncoder

end WfbBridge
