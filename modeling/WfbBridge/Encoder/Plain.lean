import Mathlib
import WfbBridge.Encoder.Format

/-!
# The encoder without FEC

With one of its numbers of blocks 0 the encoder outputs every block at once, under a sequence
number of its own and with the size it was allocated with.  The number 0 is left out, so the
numbers repeat after 255 blocks.
-/

namespace WfbBridge

open Checked

namespace FECEncoder

variable {e : FECEncoder} {msg : List UInt8}

/-- A message goes out at once. -/
theorem push_plain (hoff : e.numBlocks = 0 ∨ e.numFecBlocks = 0) (hin : e.inBlocks = [])
    (hle : e.maxBlockSize ≤ 65531) (hmsg : msg.length + 2 ≤ e.maxBlockSize) :
    e.push msg = .ok { e with
      outBlocks := e.outBlocks ++ [e.filledBlock 0 msg]
      seqNum := nextSeqNum e.seqNum } := by
  have hset : (e.filledBlock 0 msg).setBlock (u8 0) = e.filledBlock 0 msg := rfl
  rw [push, ← bind_assoc, getNextBlock_fill_eq hle hmsg, ok_bind, hin, List.length_nil, addBlock,
    hin, List.length_nil, hset, if_pos hoff.symm]

/-- There is nothing to flush. -/
theorem flush_plain (hin : e.inBlocks = []) : e.flush = .ok e := by
  simp [flush, encodeBlocks, hin, u8]

theorem length_filledBlock (i : ℕ) (hmsg : msg.length + 2 ≤ e.maxBlockSize) :
    (e.filledBlock i msg).data.length = e.maxBlockSize + 4 := by
  rw [filledBlock, List.length_append, length_word hmsg, Nat.add_comm]
  rfl

theorem packet_filledBlock (i : ℕ) (hmsg : msg.length + 2 ≤ e.maxBlockSize) :
    (e.filledBlock i msg).packet = (e.filledBlock i msg).data :=
  List.take_of_length_le (length_filledBlock i hmsg).le

/-- The block is received as it was sent. -/
theorem ofPacket_filledBlock (i : ℕ) (hle : e.maxBlockSize ≤ 65531)
    (hmsg : msg.length + 2 ≤ e.maxBlockSize) :
    FECBlock.ofPacket (e.filledBlock i msg).packet = .ok (e.filledBlock i msg) := by
  have hlen := length_filledBlock (e := e) i hmsg
  have hu : u16 (e.filledBlock i msg).data.length = e.maxBlockSize + 4 := by
    rw [hlen]
    exact u16_of_lt (by omega)
  rw [packet_filledBlock i hmsg, FECBlock.ofPacket, dif_pos (by
    rw [hu, ← hlen]
    exact (e.filledBlock i msg).header_le)]
  congr 1
  refine FECBlock.ext ?_ hu
  simp only [hu]
  exact List.take_of_length_le hlen.le

end FECEncoder

/-- The parameters of an encoder without FEC. -/
structure PlainParams where
  numBlocks : ℕ
  numFecBlocks : ℕ
  maxBlockSize : ℕ
  off : numBlocks = 0 ∨ numFecBlocks = 0 := by decide
  numBlocks_lt : numBlocks < 256 := by decide
  numFecBlocks_lt : numFecBlocks < 256 := by decide
  maxBlockSize_le : maxBlockSize ≤ 65531 := by decide

namespace PlainParams

variable (P : PlainParams)

/-- A new encoder. -/
def encoder : FECEncoder := FECEncoder.new P.numBlocks P.numFecBlocks P.maxBlockSize

/-- The sequence number of block `k`. -/
def seqNumAt (k : ℕ) : ℕ := k % 255 + 1

/-- Messages that fit into a block. -/
def Admits (ops : List FECEncoder.Op) : Prop :=
  ∀ msg ∈ messages ops, msg.length + 2 ≤ P.maxBlockSize

instance (ops : List FECEncoder.Op) : Decidable (P.Admits ops) :=
  inferInstanceAs (Decidable (∀ _ ∈ _, _))

/-- Block `k`. -/
def block (k : ℕ) (msg : List UInt8) : FECBlock :=
  { P.encoder with seqNum := seqNumAt k }.filledBlock 0 msg

theorem nextSeqNum_seqNumAt (k : ℕ) : FECEncoder.nextSeqNum (seqNumAt k) = seqNumAt (k + 1) :=
  FECEncoder.nextSeqNum_mod k

theorem header_block (k : ℕ) (msg : List UInt8) : (P.block k msg).header.seqNum = seqNumAt k ∧
    ((P.block k msg).header.nBlocks = 0 ∨ (P.block k msg).header.nFecBlocks = 0) := by
  have hlt : seqNumAt k < 256 := by
    rw [seqNumAt]
    omega
  refine ⟨UInt8.toNat_ofNat_of_lt' hlt, P.off.imp (fun h ↦ ?_) fun h ↦ ?_⟩
  · change (UInt8.ofNat P.numBlocks).toNat = 0
    rw [h]
    rfl
  · change (UInt8.ofNat P.numFecBlocks).toNat = 0
    rw [h]
    rfl

end PlainParams

/-- An encoder without FEC, after the messages `msgs`. -/
structure FECEncoder.Emits (P : PlainParams) (emitted : List FECBlock) (msgs : List (List UInt8))
    (e : FECEncoder) : Prop where
  numBlocks : e.numBlocks = P.numBlocks
  numFecBlocks : e.numFecBlocks = P.numFecBlocks
  maxBlockSize : e.maxBlockSize = P.maxBlockSize
  inBlocks : e.inBlocks = []
  seqNum : e.seqNum = PlainParams.seqNumAt msgs.length
  emitted : emitted = msgs.mapIdx P.block

namespace FECEncoder.Emits

variable {P : PlainParams} {e : FECEncoder} {returned : List FECBlock} {msgs : List (List UInt8)}

theorem init : P.encoder.Emits P [] [] := ⟨rfl, rfl, rfl, rfl, rfl, rfl⟩

theorem push (h : e.Emits P (returned ++ e.outBlocks) msgs) {msg : List UInt8}
    (hmsg : msg.length + 2 ≤ P.maxBlockSize) :
    ∃ e', e.push msg = .ok e' ∧ e'.Emits P (returned ++ e'.outBlocks) (msgs ++ [msg]) := by
  have hoff : e.numBlocks = 0 ∨ e.numFecBlocks = 0 := by
    rw [h.numBlocks, h.numFecBlocks]
    exact P.off
  have hblock : e.filledBlock 0 msg = P.block msgs.length msg := by
    refine FECBlock.ext ?_ ?_
    · simp only [FECEncoder.filledBlock, h.numBlocks, h.numFecBlocks, h.maxBlockSize, h.seqNum]
      rfl
    · simp only [FECEncoder.filledBlock, h.maxBlockSize]
      rfl
  refine ⟨_, push_plain hoff h.inBlocks (by rw [h.maxBlockSize]; exact P.maxBlockSize_le)
    (by rw [h.maxBlockSize]; exact hmsg), h.numBlocks, h.numFecBlocks, h.maxBlockSize, h.inBlocks,
    ?_, ?_⟩
  · simp only [h.seqNum, PlainParams.nextSeqNum_seqNumAt, List.length_append, List.length_singleton]
  · rw [hblock, ← List.append_assoc, h.emitted, List.mapIdx_concat]

theorem get (h : e.Emits P (returned ++ e.outBlocks) msgs) :
    e.getBlock.2.Emits P (returned ++ (e.getBlock.1.toList ++ e.getBlock.2.outBlocks)) msgs := by
  rw [FECEncoder.getBlock]
  cases hout : e.outBlocks with
  | nil =>
      rw [hout] at h
      exact ⟨h.numBlocks, h.numFecBlocks, h.maxBlockSize, h.inBlocks, h.seqNum,
        by simpa [hout] using h.emitted⟩
  | cons blk rest =>
      rw [hout] at h
      exact ⟨h.numBlocks, h.numFecBlocks, h.maxBlockSize, h.inBlocks, h.seqNum, h.emitted⟩

theorem step {op : FECEncoder.Op} (h : e.Emits P (returned ++ e.outBlocks) msgs)
    (hmsg : ∀ m ∈ messages [op], m.length + 2 ≤ P.maxBlockSize) :
    ∃ out e', e.step op = .ok (out, e') ∧
      e'.Emits P (returned ++ out ++ e'.outBlocks) (msgs ++ messages [op]) := by
  cases op with
  | push msg =>
      obtain ⟨e', hpush, h'⟩ := h.push (hmsg msg List.mem_cons_self)
      refine ⟨[], e', ?_, ?_⟩
      · rw [FECEncoder.step, hpush, ok_bind]
      · rwa [List.append_nil]
  | flush =>
      refine ⟨[], e, ?_, ?_⟩
      · rw [FECEncoder.step, flush_plain h.inBlocks, ok_bind]
      · rw [List.append_nil]
        exact (List.append_nil msgs).symm ▸ h
  | get =>
      refine ⟨_, _, rfl, ?_⟩
      rw [List.append_assoc]
      exact (List.append_nil msgs).symm ▸ h.get

end FECEncoder.Emits

/-- From a new encoder, the messages go out one by one. -/
theorem PlainParams.run_encoder (P : PlainParams) {ops : List FECEncoder.Op} (hops : P.Admits ops) :
    ∃ outs e, Run.run FECEncoder.step P.encoder ops = .ok (outs, e) ∧
      outs.flatten ++ e.outBlocks = (messages ops).mapIdx P.block := by
  obtain ⟨outs, e, hrun, h⟩ := Run.run_inv FECEncoder.step P.encoder ops
    (fun pre outs e ↦ e.Emits P (outs.flatten ++ e.outBlocks) (messages pre)) .init (by
      rintro pre op outs e ⟨post, rfl⟩ h
      have hmsg : ∀ m ∈ messages [op], m.length + 2 ≤ P.maxBlockSize := by
        intro m hm
        refine hops m ?_
        rw [← List.singleton_append, ← List.append_assoc]
        refine messages_subset ?_
        rw [messages, List.filterMap_append]
        exact List.mem_append_right _ hm
      obtain ⟨out, e', hstep, h'⟩ := h.step hmsg
      refine ⟨out, e', hstep, ?_⟩
      rw [List.flatten_append, List.flatten_singleton, messages, List.filterMap_append]
      exact h')
  exact ⟨outs, e, hrun, h.emitted⟩

end WfbBridge
