import Mathlib
import WfbBridge.Encoder.Batches
import WfbBridge.Library.Forall2
import WfbBridge.Wire

/-!
# The wire format

The encoder sends the batches of `Encoder/Batches.lean`, each as the packets of a
`Sequence`.  The invariant ties the three moments at which a header is written:
`get_next_block` and `add_block` leave the blocks `inBlock` in `m_in_blocks`, and
`encode_blocks` turns them into the packets of the sequence.
-/

namespace WfbBridge

open Checked Fec Gf

/-- The parameters of an encoder, in the limits of `fec_encode` and of the 16-bit
length field.  A sequence number is never 0; the constructor's default for the
first one is 1. -/
structure FecParams where
  numBlocks : ℕ
  numFecBlocks : ℕ
  maxBlockSize : ℕ
  startSeqNum : ℕ := 1
  numBlocks_pos : 0 < numBlocks := by decide
  numBlocks_le : numBlocks ≤ 128 := by decide
  numFecBlocks_pos : 0 < numFecBlocks := by decide
  numFecBlocks_le : numFecBlocks ≤ 128 := by decide
  two_le_maxBlockSize : 2 ≤ maxBlockSize := by decide
  maxBlockSize_le : maxBlockSize ≤ 65531 := by decide
  startSeqNum_pos : 0 < startSeqNum := by decide
  startSeqNum_lt : startSeqNum < 256 := by decide

/-- The numbers go from 1 to 255. -/
theorem FECEncoder.nextSeqNum_mod (x : ℕ) :
    FECEncoder.nextSeqNum (x % 255 + 1) = (x + 1) % 255 + 1 := by
  by_cases h : u8 (x % 255 + 1 + 1) = 0
  · rw [FECEncoder.nextSeqNum, if_pos h]
    simp only [u8] at h ⊢
    omega
  · rw [FECEncoder.nextSeqNum, if_neg h]
    simp only [u8] at h ⊢
    omega

namespace FecParams

variable (P : FecParams)

/-- A new encoder. -/
def encoder : FECEncoder :=
  FECEncoder.new P.numBlocks P.numFecBlocks P.maxBlockSize P.startSeqNum

/-- The number of the `j`-th sequence. -/
def seqNumAt (j : ℕ) : ℕ := (P.startSeqNum - 1 + j) % 255 + 1

/-- Messages that fit into a block. -/
def Admits (ops : List FECEncoder.Op) : Prop :=
  ∀ msg ∈ messages ops, msg.length + 2 ≤ P.maxBlockSize

instance (ops : List FECEncoder.Op) : Decidable (P.Admits ops) :=
  inferInstanceAs (Decidable (∀ _ ∈ _, _))

/-- A block of `m_in_blocks`. -/
def inBlock (seqNum i : ℕ) (msg : List UInt8) : FECBlock where
  data := [UInt8.ofNat seqNum, UInt8.ofNat i, UInt8.ofNat P.numBlocks, UInt8.ofNat P.numFecBlocks]
    ++ word P.maxBlockSize msg
  dataLength := P.maxBlockSize + 4
  header_le := by simp [word, lengthBytes, fecOverhead]

variable {P}

theorem seqNumAt_zero : P.seqNumAt 0 = P.startSeqNum := by
  have := P.startSeqNum_pos
  have := P.startSeqNum_lt
  rw [seqNumAt]
  omega

theorem seqNumAt_lt (j : ℕ) : P.seqNumAt j < 256 := by
  rw [seqNumAt]
  omega

theorem nextSeqNum_seqNumAt (j : ℕ) :
    FECEncoder.nextSeqNum (P.seqNumAt j) = P.seqNumAt (j + 1) := by
  simp only [seqNumAt, ← Nat.add_assoc]
  exact FECEncoder.nextSeqNum_mod _

/-- Sequences less than 255 apart have different numbers. -/
theorem seqNumAt_ne {i j : ℕ} (hlt : i < j) (h : j < i + 255) : P.seqNumAt i ≠ P.seqNumAt j := by
  simp only [seqNumAt]
  omega

end FecParams

/-! ## Adding a message -/

namespace FECEncoder

/-- The block of a message, when `i` blocks are in `m_in_blocks`. -/
def filledBlock (e : FECEncoder) (i : ℕ) (msg : List UInt8) : FECBlock where
  data := [UInt8.ofNat e.seqNum, UInt8.ofNat i, UInt8.ofNat e.numBlocks, UInt8.ofNat e.numFecBlocks]
    ++ word e.maxBlockSize msg
  dataLength := e.maxBlockSize + 4
  header_le := by simp [word, lengthBytes, fecOverhead]

variable {e : FECEncoder} {msg : List UInt8}

/-- `get_next_block`: there is room for all but two bytes of the block size. -/
theorem getNextBlock_ok (h2 : 2 ≤ e.maxBlockSize) (hle : e.maxBlockSize ≤ 65531) (n : ℕ) :
    ∃ b, e.getNextBlock n = .ok b ∧ b.data.length = fecOverhead + (e.maxBlockSize - 2) := by
  have hsize : u16 (e.maxBlockSize + fecOverhead - 2) = e.maxBlockSize + 4 :=
    (u16_of_lt (by simp only [fecOverhead]; omega)).trans rfl
  rw [getNextBlock, FECBlock.new, hsize, FECBlock.zeroed,
    dif_pos (by simp only [fecOverhead]; omega)]
  refine ⟨_, rfl, ?_⟩
  simp only [List.length_append, FECHeader.length_bytes, List.length_replicate, fecOverhead]
  omega

/-- `get_next_block` and the copy of a message that fits. -/
theorem getNextBlock_fill_eq (hle : e.maxBlockSize ≤ 65531)
    (hmsg : msg.length + 2 ≤ e.maxBlockSize) :
    (do let b ← e.getNextBlock msg.length
        b.fill msg) = .ok (e.filledBlock e.inBlocks.length msg) := by
  have hsize : u16 (e.maxBlockSize + fecOverhead - 2) = e.maxBlockSize + 4 :=
    (u16_of_lt (by simp only [fecOverhead]; omega)).trans rfl
  have hlen : u16 msg.length = msg.length := u16_of_lt (by omega)
  have h6 : fecOverhead ≤ e.maxBlockSize + 4 := by
    simp only [fecOverhead]
    omega
  rw [getNextBlock, hlen, FECBlock.new, hsize, FECBlock.zeroed, dif_pos h6, ok_bind, FECBlock.fill,
    if_pos]
  · congr 1
    refine FECBlock.ext ?_ rfl
    simp only [FECBlock.write, filledBlock, word, FECHeader.bytes, fecOverhead, lengthBytes,
      List.cons_append, List.nil_append, List.take_succ_cons, List.take_zero, Nat.add_comm 6,
      List.drop_succ_cons, List.drop_replicate]
    congr 8
    omega
  · simp only [fecOverhead, List.length_append, List.length_replicate, FECHeader.length_bytes]
    omega

theorem filledBlock_data (i : ℕ) :
    (e.filledBlock i msg).data = [UInt8.ofNat e.seqNum, UInt8.ofNat i,
      UInt8.ofNat e.numBlocks, UInt8.ofNat e.numFecBlocks] ++ word e.maxBlockSize msg ++ [] :=
  (List.append_nil _).symm

theorem filledBlock_length (hle : e.maxBlockSize ≤ 65531) (hmsg : msg.length + 2 ≤ e.maxBlockSize)
    (i : ℕ) : (e.filledBlock i msg).length = msg.length :=
  FECBlock.length_of_word (filledBlock_data i) (by omega)

theorem filledBlock_payload (hle : e.maxBlockSize ≤ 65531) (hmsg : msg.length + 2 ≤ e.maxBlockSize)
    (i : ℕ) : (e.filledBlock i msg).payload = some msg :=
  FECBlock.payload_of_word (filledBlock_data i) (by omega)

theorem filledBlock_blockSize (hle : e.maxBlockSize ≤ 65531)
    (hmsg : msg.length + 2 ≤ e.maxBlockSize) (i : ℕ) :
    (e.filledBlock i msg).blockSize = msg.length + 2 := by
  rw [FECBlock.blockSize, filledBlock_length hle hmsg]
  exact u16_of_lt (by omega)

/-- One turn of the client's loop: the block goes to `m_in_blocks`, and the batch is
encoded when it is full. -/
theorem push_filled (hle : e.maxBlockSize ≤ 65531) (hn : e.numBlocks < 256)
    (hpos : 0 < e.numFecBlocks) (hlt : e.inBlocks.length < e.numBlocks)
    (hmsg : msg.length + 2 ≤ e.maxBlockSize) :
    e.push msg =
      let e' := { e with inBlocks := e.inBlocks ++ [e.filledBlock e.inBlocks.length msg] }
      if e.inBlocks.length + 1 = e.numBlocks then e'.encodeBlocks else .ok e' := by
  have hu : u8 e.inBlocks.length = e.inBlocks.length := u8_of_lt (by omega)
  have hset : (e.filledBlock e.inBlocks.length msg).setBlock e.inBlocks.length =
      e.filledBlock e.inBlocks.length msg := rfl
  have hblock : (e.filledBlock e.inBlocks.length msg).header.block = e.inBlocks.length :=
    UInt8.toNat_ofNat_of_lt' (show e.inBlocks.length < 256 by omega)
  rw [push, ← bind_assoc, getNextBlock_fill_eq hle hmsg, ok_bind, addBlock, hu, hset, hblock,
    if_neg (by omega)]
  simp only [hpos, true_and]
  by_cases h : e.inBlocks.length + 1 = e.numBlocks
  · rw [if_pos (by omega), if_pos h]
  · rw [if_neg (by omega), if_neg h]

end FECEncoder

section Push

variable {P : FecParams} {e : FECEncoder} {msg : List UInt8}

/-- The parameters of the encoder never change. -/
structure FECEncoder.Params (P : FecParams) (e : FECEncoder) : Prop where
  numBlocks : e.numBlocks = P.numBlocks
  numFecBlocks : e.numFecBlocks = P.numFecBlocks
  maxBlockSize : e.maxBlockSize = P.maxBlockSize

theorem FECEncoder.Params.filledBlock (hp : e.Params P) (i : ℕ) (msg : List UInt8) :
    e.filledBlock i msg = P.inBlock e.seqNum i msg := by
  refine FECBlock.ext ?_ ?_
  · simp only [FECEncoder.filledBlock, FecParams.inBlock, hp.numBlocks, hp.numFecBlocks,
      hp.maxBlockSize]
  · simp only [FECEncoder.filledBlock, FecParams.inBlock, hp.maxBlockSize]

/-- `push_filled`, with the parameters of the encoder. -/
theorem push_eq (hp : e.Params P) (hlt : e.inBlocks.length < P.numBlocks)
    (hmsg : msg.length + 2 ≤ P.maxBlockSize) :
    e.push msg =
      let e' := { e with inBlocks := e.inBlocks ++ [P.inBlock e.seqNum e.inBlocks.length msg] }
      if e.inBlocks.length + 1 = P.numBlocks then e'.encodeBlocks else .ok e' := by
  have hn := P.numBlocks_le
  have hpos := P.numFecBlocks_pos
  have hle := P.maxBlockSize_le
  rw [← hp.numBlocks] at hlt hn ⊢
  rw [← hp.numFecBlocks] at hpos
  rw [← hp.maxBlockSize] at hmsg hle
  rw [FECEncoder.push_filled hle (by omega) hpos hlt hmsg, hp.filledBlock]

end Push

/-! ## Closing a batch -/

/-- A block that goes out as the packet `pkt`. -/
structure FECBlock.SentAs (b : FECBlock) (pkt : List UInt8) : Prop where
  packet : b.packet = pkt
  pktLength : b.pktLength = pkt.length

theorem FECBlock.map_packet_of_sentAs {blocks : List FECBlock} {pkts : List (List UInt8)}
    (h : List.Forall₂ FECBlock.SentAs blocks pkts) : blocks.map FECBlock.packet = pkts := by
  induction h with
  | nil => rfl
  | cons hb _ ih => rw [List.map_cons, ih, hb.packet]

theorem largestBlockSize_eq {msgs : List (List UInt8)} (hne : msgs ≠ []) {blocks : List FECBlock}
    (h : blocks.map FECBlock.blockSize = msgs.map fun m ↦ m.length + 2) :
    FECEncoder.largestBlockSize blocks = longest msgs + 2 := by
  have hfold : ∀ (l : List FECBlock) (a : ℕ),
      l.foldl (fun size b ↦ max size b.blockSize) a =
        max a ((l.map FECBlock.blockSize).foldr max 0) := by
    intro l
    induction l with
    | nil => intro a; simp
    | cons b l ih =>
        intro a
        simp only [List.foldl_cons, ih, List.map_cons, List.foldr_cons, max_assoc]
  have hlong : ∀ ms : List (List UInt8), ms ≠ [] →
      (ms.map fun m ↦ m.length + 2).foldr max 0 = longest ms + 2 := by
    intro ms
    induction ms with
    | nil => intro h; exact absurd rfl h
    | cons m ms ih =>
        intro _
        by_cases hms : ms = []
        · subst hms
          simp [longest]
        · rw [List.map_cons, List.foldr_cons, ih hms]
          simp only [longest, List.map_cons, List.foldr_cons]
          omega
  rw [FECEncoder.largestBlockSize, hfold, h, hlong msgs hne, Nat.zero_max]

/-! ### The blocks of `encode_blocks` -/

namespace FECEncoder

variable {e : FECEncoder}

/-- The part of a header that is not coded, in a sequence of `n` data blocks. -/
def tag (e : FECEncoder) (n k : ℕ) : List UInt8 :=
  [UInt8.ofNat e.seqNum, UInt8.ofNat k, UInt8.ofNat n, UInt8.ofNat e.numFecBlocks]

/-- A data block as `encode_blocks` leaves it. -/
theorem filledBlock_sentAs {size : ℕ} {m : List UInt8} (hm : m.length + 2 ≤ size)
    (hmax : size ≤ e.maxBlockSize) (hle : size ≤ 65531) (n i : ℕ) :
    (((e.filledBlock i m).adjustBlockSize size).setNBlocks n).SentAs
      (e.tag n i ++ word size m) := by
  have hsize : u16 (size + fecOverhead - 2) = 4 + size := by
    simp only [fecOverhead]
    rw [u16_of_lt (by omega)]
    omega
  refine ⟨?_, ?_⟩
  · have hdata : (((e.filledBlock i m).adjustBlockSize size).setNBlocks n).data =
        e.tag n i ++ word e.maxBlockSize m := rfl
    have hlen : (((e.filledBlock i m).adjustBlockSize size).setNBlocks n).dataLength =
        (e.tag n i).length + size := hsize
    rw [FECBlock.packet, hdata, hlen, List.take_length_add_append, take_word hm hmax]
  · refine hsize.trans ?_
    rw [List.length_append, length_word hm]
    rfl

/-- The FEC blocks, before they are filled. -/
theorem new_fecBlock (e : FECEncoder) {size : ℕ} (h2 : 2 ≤ size) (hle : size ≤ 65531) (n k : ℕ) :
    ∃ b, FECBlock.new e.seqNum k n e.numFecBlocks size (u16 (size + 65536 - 2)) = .ok b ∧
      b.dataLength = size + 4 ∧ b.fecData.length = size ∧ b.data.take 4 = e.tag n k := by
  have hsize : u16 (size + fecOverhead - 2) = size + 4 := by
    simp only [fecOverhead]
    exact u16_of_lt (by omega)
  rw [FECBlock.new, hsize, FECBlock.zeroed, dif_pos (by simp only [fecOverhead]; omega)]
  refine ⟨_, rfl, rfl, ?_, rfl⟩
  simp only [FECBlock.fecData, List.length_drop, List.length_append, FECHeader.length_bytes,
    fecOverhead, List.length_replicate]
  omega

/-- A filled FEC block. -/
theorem write_sentAs {b : FECBlock} {tag : List UInt8} (bytes : List UInt8)
    (htag : b.data.take 4 = tag) (hlen : b.dataLength = bytes.length + 4)
    (hfec : b.fecData.length = bytes.length) :
    (b.write (fecOverhead - 2) bytes).SentAs (tag ++ bytes) := by
  have hdrop : b.data.drop (fecOverhead - 2 + bytes.length) = [] := by
    rw [← List.drop_drop]
    exact List.drop_eq_nil_of_le hfec.le
  have hdata : (b.write (fecOverhead - 2) bytes).data = tag ++ bytes := by
    rw [FECBlock.data_write, hdrop, List.append_nil, ← htag]
    rfl
  have hfour : tag.length = 4 := by
    have h6 := b.header_le
    simp only [fecOverhead] at h6
    rw [← htag, List.length_take]
    omega
  have hlength : (tag ++ bytes).length = b.dataLength := by
    rw [List.length_append, hfour, hlen, Nat.add_comm]
  exact ⟨by rw [FECBlock.packet, hdata]; exact List.take_of_length_le hlength.le, hlength.symm⟩

/-- `encode_blocks` up to the call of `fec_encode`, and after it. -/
theorem encodeBlocks_eq {msgs : List (List UInt8)} (hne : msgs ≠ [])
    (hn : msgs.length ≤ e.numBlocks) (hlt : msgs.length < 256) (hle : e.maxBlockSize ≤ 65531)
    (hfit : ∀ m ∈ msgs, m.length + 2 ≤ e.maxBlockSize)
    (hin : e.inBlocks = msgs.mapIdx e.filledBlock) :
    ∃ fecBlock : ℕ → FECBlock,
      (∀ k, (fecBlock k).dataLength = longest msgs + 2 + 4 ∧
        (fecBlock k).fecData.length = longest msgs + 2 ∧
        (fecBlock k).data.take 4 = e.tag msgs.length k) ∧
      e.encodeBlocks = (do
        let coded ← fecEncode (longest msgs + 2) (msgs.map (word e.maxBlockSize))
          ((List.range e.numFecBlocks).map fun r ↦ (fecBlock (msgs.length + r)).fecData)
        .ok { e with
          seqNum := nextSeqNum e.seqNum
          inBlocks := []
          outBlocks := e.outBlocks ++ ((msgs.mapIdx fun i m ↦
            ((e.filledBlock i m).adjustBlockSize (longest msgs + 2)).setNBlocks msgs.length) ++
            List.zipWith (fun r bytes ↦ (fecBlock (msgs.length + r)).write (fecOverhead - 2) bytes)
              (List.range e.numFecBlocks) coded) }) := by
  have hlong : longest msgs + 2 ≤ e.maxBlockSize := by
    obtain ⟨m, hm, hlen⟩ := exists_longest hne
    rw [← hlen]
    exact hfit m hm
  choose fecBlock hnew hfecBlock using e.new_fecBlock (Nat.le_add_left 2 (longest msgs))
    (hlong.trans hle) msgs.length
  refine ⟨fecBlock, hfecBlock, ?_⟩
  have hlen : e.inBlocks.length = msgs.length := by rw [hin, List.length_mapIdx]
  have hu : u8 e.inBlocks.length = msgs.length := by rw [hlen]; exact u8_of_lt hlt
  have htake : e.inBlocks.take msgs.length = e.inBlocks := List.take_of_length_le hlen.le
  have hsize : largestBlockSize e.inBlocks = longest msgs + 2 := by
    refine largestBlockSize_eq hne ?_
    rw [hin]
    refine List.ext_getElem (by simp) fun i hi hi' ↦ ?_
    simp only [List.getElem_mapIdx, List.getElem_map]
    exact filledBlock_blockSize hle (hfit _ (List.getElem_mem _)) i
  have hdata : (e.inBlocks.map fun b ↦ (b.adjustBlockSize (longest msgs + 2)).setNBlocks
      msgs.length) = msgs.mapIdx fun i m ↦
        ((e.filledBlock i m).adjustBlockSize (longest msgs + 2)).setNBlocks msgs.length := by
    rw [hin]
    exact List.ext_getElem (by simp) fun i hi hi' ↦ by simp
  have hwords : (msgs.mapIdx fun i m ↦ ((e.filledBlock i m).adjustBlockSize
      (longest msgs + 2)).setNBlocks msgs.length).map FECBlock.fecData =
        msgs.map (word e.maxBlockSize) := by
    refine List.ext_getElem (by simp) fun i hi hi' ↦ ?_
    simp only [List.getElem_map, List.getElem_mapIdx]
    rfl
  simp only [encodeBlocks, hu, htake, hsize, if_neg (Nat.not_lt.mpr hn),
    if_neg (List.length_pos_iff.mpr hne).ne', hdata, hwords]
  rw [mapM_eq_ok fun r _ ↦ hnew (msgs.length + r), ok_bind, List.map_map]
  simp only [List.zipWith_map_left, List.append_assoc]
  rfl

end FECEncoder

section Encode

variable {P : FecParams} {q : Sequence}

theorem inBlock_payload {s i : ℕ} {m : List UInt8} (hm : m.length + 2 ≤ P.maxBlockSize) :
    (P.inBlock s i m).payload = some m :=
  FECEncoder.filledBlock_payload (e := { P.encoder with seqNum := s }) P.maxBlockSize_le hm i

/-- `fec_encode` computes the parity of the sequence. -/
theorem fecEncode_eq_parity (fec : List (List UInt8)) (hmax : q.size ≤ P.maxBlockSize)
    (hlen : fec.length = q.nFecBlocks) (hfec : ∀ x ∈ fec, x.length = q.size) :
    fecEncode q.size (q.msgs.map (word P.maxBlockSize)) fec
      = .ok ((List.range q.nFecBlocks).map q.parity) := by
  have hword : ∀ m ∈ q.msgs, (word P.maxBlockSize m).length = P.maxBlockSize := fun m hm ↦
    length_word ((Nat.add_le_add_right (le_longest hm) 2).trans hmax)
  obtain ⟨r, hr, hov⟩ := fecEncode_spec q.size (q.msgs.map (word P.maxBlockSize)) fec
    (by simpa using q.msgs_ne) (by simpa using q.msgs_le)
    (by rw [hlen]; exact q.nFecBlocks_le.trans (by decide))
    (by
      intro x hx
      obtain ⟨m, hm, rfl⟩ := List.mem_map.mp hx
      rw [hword m hm]
      exact hmax)
    (fun x hx ↦ (hfec x hx).ge)
  rw [hr]
  congr 1
  refine List.ext_getElem (by rw [hov.length, hlen]; simp) fun j hj hj' ↦ ?_
  obtain ⟨x, hx, hrow⟩ := hov.exists_row (List.getElem?_eq_getElem hj)
  have hxlen : x.length = q.size := hfec x (List.mem_of_getElem? hx)
  rw [List.getElem_map, List.getElem_range]
  refine ext_byteAt (by rw [hrow.length, hxlen, Sequence.length_parity]) fun p hp ↦ ?_
  rw [hrow.length, hxlen] at hp
  rw [hrow.at_lt p hp, Sequence.byteAt_parity hp, Sequence.code, List.length_map]
  refine Finset.sum_congr rfl fun i hi ↦ ?_
  have hi' : i < q.nBlocks := Finset.mem_range.mp hi
  rw [blockByte_of_getElem? (b := word P.maxBlockSize (q.msg i))
    (by rw [List.getElem?_map, Sequence.msg_eq hi', Option.map_some]),
    ← take_word (Sequence.length_msg_le i) hmax]
  congr 1
  simp only [byteAt, List.getD_eq_getElem?_getD, List.getElem?_take_of_lt hp]

/-- `encode_blocks` sends the packets of the sequence and starts the next one. -/
theorem encodeBlocks_spec {e : FECEncoder} (hp : e.Params P) (hseq : q.seqNum = e.seqNum)
    (hnf : q.nFecBlocks = P.numFecBlocks) (hmax : q.size ≤ P.maxBlockSize)
    (hn : q.nBlocks ≤ P.numBlocks) (hin : e.inBlocks = q.msgs.mapIdx (P.inBlock e.seqNum)) :
    ∃ sent, List.Forall₂ FECBlock.SentAs sent q.packets ∧
      e.encodeBlocks = .ok { e with
        seqNum := FECEncoder.nextSeqNum e.seqNum
        inBlocks := []
        outBlocks := e.outBlocks ++ sent } := by
  have hfilled : e.filledBlock = P.inBlock e.seqNum := by
    funext i m
    exact hp.filledBlock i m
  have htag : ∀ k, e.tag q.nBlocks k = q.tag k := by
    intro k
    rw [FECEncoder.tag, Sequence.tag, hseq, hnf, hp.numFecBlocks]
  have hle : q.nBlocks ≤ 128 := q.msgs_le
  obtain ⟨fecBlock, hfecBlock, henc⟩ := FECEncoder.encodeBlocks_eq q.msgs_ne
    (by rw [hp.numBlocks]; exact hn) (Nat.lt_of_le_of_lt hle (by decide))
    (by rw [hp.maxBlockSize]; exact P.maxBlockSize_le)
    (fun m hm ↦ by rw [hp.maxBlockSize]; exact (Nat.add_le_add_right (le_longest hm) 2).trans hmax)
    (by rw [hin, hfilled])
  change ∀ k, (fecBlock k).dataLength = q.size + 4 ∧ (fecBlock k).fecData.length = q.size ∧
    (fecBlock k).data.take 4 = e.tag q.nBlocks k at hfecBlock
  have hcode := fecEncode_eq_parity (P := P)
    ((List.range q.nFecBlocks).map fun r ↦ (fecBlock (q.nBlocks + r)).fecData) hmax (by simp) (by
      intro x hx
      obtain ⟨r, -, rfl⟩ := List.mem_map.mp hx
      exact (hfecBlock _).2.1)
  have hnf' : q.nFecBlocks = e.numFecBlocks := hnf.trans hp.numFecBlocks.symm
  rw [← hp.maxBlockSize, hnf'] at hcode
  change fecEncode (longest q.msgs + 2) _ ((List.range e.numFecBlocks).map fun r ↦
    (fecBlock (q.msgs.length + r)).fecData) = _ at hcode
  rw [hcode, ok_bind] at henc
  refine ⟨_, ?_, henc⟩
  rw [← hnf', Sequence.packets_eq, Sequence.mapIdx_msgs, List.zipWith_map_right, List.zipWith_self]
  refine List.rel_append ?_ ?_
  · simp only [List.forall₂_map_left_iff, List.forall₂_map_right_iff, List.forall₂_same]
    intro i hi
    have h := FECEncoder.filledBlock_sentAs (e := e) (q.length_msg_le i)
      (by rw [hp.maxBlockSize]; exact hmax) q.size_le q.nBlocks i
    rwa [htag, ← Sequence.body_of_lt (List.mem_range.mp hi)] at h
  · simp only [List.forall₂_map_left_iff, List.forall₂_map_right_iff, List.forall₂_same]
    intro r _
    obtain ⟨hlen, hfec, htake⟩ := hfecBlock (q.nBlocks + r)
    have h := FECEncoder.write_sentAs (q.parity r) (htake.trans (htag _))
      (by rw [Sequence.length_parity]; exact hlen) (by rw [Sequence.length_parity]; exact hfec)
    rw [Sequence.packet, Sequence.body_add]
    exact h

end Encode

/-! ## Runs of the encoder -/

/-- `q` can be the `j`-th sequence of an encoder. -/
structure FecParams.IsSequence (P : FecParams) (j : ℕ) (q : Sequence) : Prop where
  seqNum : q.seqNum = P.seqNumAt j
  nFecBlocks : q.nFecBlocks = P.numFecBlocks
  nBlocks_le : q.nBlocks ≤ P.numBlocks
  size_le : q.size ≤ P.maxBlockSize

theorem FecParams.exists_isSequence (P : FecParams) (j : ℕ) {msgs : List (List UInt8)}
    (hne : msgs ≠ []) (hn : msgs.length ≤ P.numBlocks)
    (hm : ∀ m ∈ msgs, m.length + 2 ≤ P.maxBlockSize) :
    ∃ q : Sequence, q.msgs = msgs ∧ P.IsSequence j q := by
  have hmax := P.maxBlockSize_le
  have hlong : longest msgs + 2 ≤ P.maxBlockSize := by
    obtain ⟨m, hmem, hlen⟩ := exists_longest hne
    rw [← hlen]
    exact hm m hmem
  exact ⟨{  seqNum := P.seqNumAt j
            nFecBlocks := P.numFecBlocks
            msgs
            seqNum_pos := Nat.succ_pos _
            seqNum_lt := FecParams.seqNumAt_lt j
            nFecBlocks_pos := P.numFecBlocks_pos
            nFecBlocks_le := P.numFecBlocks_le
            msgs_ne := hne
            msgs_le := hn.trans P.numBlocks_le
            msg_le := fun m hmem ↦ by
              have := hm m hmem
              omega }, rfl, rfl, rfl, hn, hlong⟩

/-- The encoder holds the pending messages of `b`, and the blocks `emitted` are its
closed batches, sent as the sequences `qs`. -/
structure FECEncoder.Represents (P : FecParams) (b : Batches (List UInt8))
    (emitted : List FECBlock) (e : FECEncoder) (qs : List Sequence) : Prop where
  params : e.Params P
  seqNum : e.seqNum = P.seqNumAt qs.length
  pending : e.inBlocks = b.pending.mapIdx (P.inBlock e.seqNum)
  msgs : qs.map Sequence.msgs = b.closed.map Batch.items
  isSequence : ∀ (j : ℕ) (q : Sequence), qs[j]? = some q → P.IsSequence j q
  emitted : List.Forall₂ FECBlock.SentAs emitted (qs.flatMap Sequence.packets)

namespace FECEncoder.Represents

variable {P : FecParams} {b : Batches (List UInt8)} {returned : List FECBlock} {e : FECEncoder}
  {qs : List Sequence}

theorem length_inBlocks (h : Represents P b (returned ++ e.outBlocks) e qs) :
    e.inBlocks.length = b.pending.length := by
  rw [h.pending, List.length_mapIdx]

/-- Closing the batch: the encoder with `msgs` in `m_in_blocks` sends one more sequence. -/
theorem close (h : Represents P b (returned ++ e.outBlocks) e qs) {c : Batch (List UInt8)}
    (hne : c.items ≠ []) (hn : c.items.length ≤ P.numBlocks)
    (hm : ∀ m ∈ c.items, m.length + 2 ≤ P.maxBlockSize) :
    ∃ e' qs', { e with inBlocks := c.items.mapIdx (P.inBlock e.seqNum) }.encodeBlocks = .ok e' ∧
      Represents P { closed := b.closed ++ [c] } (returned ++ e'.outBlocks) e' qs' := by
  obtain ⟨q, hq, hseq⟩ := P.exists_isSequence qs.length hne hn hm
  obtain ⟨sent, hsent, henc⟩ := encodeBlocks_spec (q := q) (P := P)
    (e := { e with inBlocks := c.items.mapIdx (P.inBlock e.seqNum) })
    ⟨h.params.numBlocks, h.params.numFecBlocks, h.params.maxBlockSize⟩
    (hseq.seqNum.trans h.seqNum.symm) hseq.nFecBlocks hseq.size_le hseq.nBlocks_le (by rw [hq])
  refine ⟨_, qs ++ [q], henc, ?_⟩
  refine ⟨⟨h.params.numBlocks, h.params.numFecBlocks, h.params.maxBlockSize⟩, ?_, rfl, ?_, ?_, ?_⟩
  · rw [List.length_append, List.length_singleton, ← FecParams.nextSeqNum_seqNumAt, ← h.seqNum]
  · rw [List.map_append, List.map_append, h.msgs, List.map_singleton, hq, List.map_singleton]
  · intro j q' hq'
    rcases Nat.lt_or_ge j qs.length with hj | hj
    · rw [List.getElem?_append_left hj] at hq'
      exact h.isSequence j q' hq'
    · have hj' : j = qs.length := by
        have := (List.getElem?_eq_some_iff.mp hq').1
        simp only [List.length_append, List.length_singleton] at this
        omega
      subst hj'
      rw [List.getElem?_concat_length] at hq'
      exact Option.some.inj hq' ▸ hseq
  · rw [List.flatMap_append, List.flatMap_singleton, ← List.append_assoc]
    exact List.rel_append h.emitted hsent

theorem push (h : Represents P b (returned ++ e.outBlocks) e qs) (hb : b.Bounded P.numBlocks)
    (hm : ∀ m ∈ b.pending, m.length + 2 ≤ P.maxBlockSize) {msg : List UInt8}
    (hmsg : msg.length + 2 ≤ P.maxBlockSize) :
    ∃ e' qs', e.push msg = .ok e' ∧
      Represents P (b.push P.numBlocks msg) (returned ++ e'.outBlocks) e' qs' := by
  have hlen := h.length_inBlocks
  have hlt := hb.pending_lt
  have hin : e.inBlocks ++ [P.inBlock e.seqNum e.inBlocks.length msg]
      = (b.pending ++ [msg]).mapIdx (P.inBlock e.seqNum) := by
    rw [List.mapIdx_concat, ← h.pending, hlen]
  rw [push_eq h.params (by omega) hmsg, hin, hlen, Batches.push]
  by_cases hfull : b.pending.length + 1 = P.numBlocks
  · simp only [if_pos hfull]
    refine h.close (c := ⟨b.pending ++ [msg], false⟩) (by simp) (by simp; omega) ?_
    intro m hmem
    rcases List.mem_append.mp hmem with hmem | hmem
    · exact hm m hmem
    · rwa [List.mem_singleton.mp hmem]
  · simp only [if_neg hfull]
    exact ⟨_, qs, rfl, ⟨h.params.numBlocks, h.params.numFecBlocks, h.params.maxBlockSize⟩,
      h.seqNum, rfl, h.msgs, h.isSequence, h.emitted⟩

theorem flush (h : Represents P b (returned ++ e.outBlocks) e qs) (hb : b.Bounded P.numBlocks)
    (hm : ∀ m ∈ b.pending, m.length + 2 ≤ P.maxBlockSize) :
    ∃ e' qs', e.flush = .ok e' ∧ Represents P b.flush (returned ++ e'.outBlocks) e' qs' := by
  rw [FECEncoder.flush, Batches.flush]
  by_cases hempty : b.pending.isEmpty
  · have hin : e.inBlocks = [] := by
      rw [h.pending, List.isEmpty_iff.mp hempty]
      rfl
    rw [if_pos hempty]
    exact ⟨e, qs, by simp [encodeBlocks, hin, u8], h⟩
  · rw [if_neg hempty]
    have he : { e with inBlocks := b.pending.mapIdx (P.inBlock e.seqNum) } = e := by
      rw [← h.pending]
    have hclose := h.close (c := ⟨b.pending, true⟩) (by simpa using hempty) hb.pending_lt.le hm
    rwa [he] at hclose

theorem get (h : Represents P b (returned ++ e.outBlocks) e qs) :
    Represents P b (returned ++ (e.getBlock.1.toList ++ e.getBlock.2.outBlocks)) e.getBlock.2
      qs := by
  rw [FECEncoder.getBlock]
  cases hout : e.outBlocks with
  | nil =>
      rw [hout] at h
      simpa [hout] using h
  | cons blk rest =>
      rw [hout] at h
      exact ⟨⟨h.params.numBlocks, h.params.numFecBlocks, h.params.maxBlockSize⟩, h.seqNum,
        h.pending, h.msgs, h.isSequence, h.emitted⟩

end FECEncoder.Represents

theorem messages_subset {pre post : List FECEncoder.Op} {m : List UInt8} (h : m ∈ messages pre) :
    m ∈ messages (pre ++ post) := by
  rw [messages, List.filterMap_append]
  exact List.mem_append_left _ h

theorem FecParams.Admits.pending {P : FecParams} {pre post : List FECEncoder.Op}
    (h : P.Admits (pre ++ post)) :
    ∀ m ∈ (batches P.numBlocks pre).pending, m.length + 2 ≤ P.maxBlockSize := by
  intro m hm
  refine h m (messages_subset ?_)
  rw [← (batches_spec P.numBlocks_pos pre).1]
  exact List.mem_append_right _ hm

theorem FECEncoder.Represents.step {P : FecParams} {pre post : List FECEncoder.Op}
    {op : FECEncoder.Op} {returned : List FECBlock} {e : FECEncoder} {qs : List Sequence}
    (hops : P.Admits (pre ++ op :: post))
    (h : e.Represents P (batches P.numBlocks pre) (returned ++ e.outBlocks) qs) :
    ∃ out e' qs', e.step op = .ok (out, e') ∧ e'.Represents P
      (batches P.numBlocks (pre ++ [op])) (returned ++ out ++ e'.outBlocks) qs' := by
  have hb := (batches_spec P.numBlocks_pos pre).2
  rw [batches_concat]
  cases op with
  | push msg =>
      have hmsg : msg.length + 2 ≤ P.maxBlockSize := hops msg (by simp [messages])
      obtain ⟨e', qs', hpush, h'⟩ := h.push hb hops.pending hmsg
      refine ⟨[], e', qs', ?_, ?_⟩
      · rw [FECEncoder.step, hpush, ok_bind]
      · rwa [List.append_nil]
  | flush =>
      obtain ⟨e', qs', hflush, h'⟩ := h.flush hb hops.pending
      refine ⟨[], e', qs', ?_, ?_⟩
      · rw [FECEncoder.step, hflush, ok_bind]
      · rwa [List.append_nil]
  | get =>
      refine ⟨_, _, qs, rfl, ?_⟩
      rw [List.append_assoc]
      exact h.get

/-- From a new encoder, operations on messages that fit do not fail, and what is
emitted is the batches. -/
theorem run_represents (P : FecParams) {ops : List FECEncoder.Op} (hops : P.Admits ops) :
    ∃ outs e qs, Run.run FECEncoder.step P.encoder ops = .ok (outs, e) ∧
      e.Represents P (batches P.numBlocks ops) (outs.flatten ++ e.outBlocks) qs := by
  obtain ⟨outs, e, hrun, qs, h⟩ := Run.run_inv FECEncoder.step P.encoder ops
    (fun pre outs e ↦ ∃ qs, e.Represents P (batches P.numBlocks pre)
      (outs.flatten ++ e.outBlocks) qs)
    ⟨[], ⟨rfl, rfl, rfl⟩, FecParams.seqNumAt_zero.symm, rfl, rfl, by simp, List.Forall₂.nil⟩
    (fun pre op outs e hpost hqs ↦ by
      obtain ⟨post, rfl⟩ := hpost
      obtain ⟨qs, h⟩ := hqs
      obtain ⟨out, e', qs', hstep, h'⟩ := h.step hops
      refine ⟨out, e', hstep, qs', ?_⟩
      rwa [List.flatten_append, List.flatten_singleton])
  exact ⟨outs, e, qs, hrun, h⟩

/-! ## The format -/

namespace FECBlock.SentAs

variable {b : FECBlock} {q : Sequence} {k : ℕ}

theorem dataLength (h : b.SentAs (q.packet k)) : b.dataLength = q.size + 4 :=
  h.pktLength.trans (Sequence.length_packet k)

theorem le_length (h : b.SentAs (q.packet k)) : q.size + 4 ≤ b.data.length := by
  have hlen := congrArg List.length h.packet
  rw [FECBlock.packet, List.length_take, h.dataLength, Sequence.length_packet] at hlen
  omega

theorem take_data (h : b.SentAs (q.packet k)) : b.data.take (q.size + 4) = q.packet k := by
  rw [← h.dataLength]
  exact h.packet

/-- The header of a block that is sent is the header that is received. -/
theorem header (h : b.SentAs (q.packet k)) : b.header = (q.block k).header := by
  have hbyte : ∀ i < fecOverhead, b.byte i = (q.block k).byte i := by
    intro i hi
    have hlt : i < q.size + 4 := by
      have := q.two_le_size
      simp only [fecOverhead] at hi
      omega
    have hdata : (q.block k).data = b.data.take (q.size + 4) := h.take_data.symm
    simp only [FECBlock.byte, hdata, List.getD_eq_getElem?_getD, List.getElem?_take_of_lt hlt]
  simp only [FECBlock.header, hbyte 0 (by decide), hbyte 1 (by decide), hbyte 2 (by decide),
    hbyte 3 (by decide), hbyte 4 (by decide), hbyte 5 (by decide)]

theorem payload (h : b.SentAs (q.packet k)) (hk : k < q.nBlocks) : b.payload = some (q.msg k) := by
  have hfit := q.length_msg_le k
  have hlen : b.length = (q.msg k).length := by
    rw [FECBlock.length, h.header]
    exact Sequence.length_block hk
  have hin : fecOverhead + (q.msg k).length ≤ q.size + 4 := by
    simp only [fecOverhead]
    omega
  have hrecv := Sequence.payload_block hk
  rw [FECBlock.payload, Sequence.length_block hk,
    if_pos (by rw [Sequence.length_data_block]; exact hin)] at hrecv
  rw [FECBlock.payload, hlen, if_pos (hin.trans h.le_length), ← hrecv]
  have hdata : (q.block k).data = b.data.take (q.size + 4) := h.take_data.symm
  rw [hdata, List.drop_take, List.take_take, Nat.min_eq_left (by omega)]

end FECBlock.SentAs

theorem FECBlock.sentAs_packet {q : Sequence} {blocks : List FECBlock}
    (h : List.Forall₂ FECBlock.SentAs blocks q.packets) {k : ℕ} {b : FECBlock}
    (hb : blocks[k]? = some b) : b.SentAs (q.packet k) := by
  obtain ⟨hk, rfl⟩ := List.getElem?_eq_some_iff.mp hb
  have hk' : k < q.packets.length := by rw [← h.length_eq]; exact hk
  have := List.forall₂_iff_get.mp h |>.2 k hk hk'
  simpa [Sequence.packets] using this

/-- The blocks of a sequence that carries `msgs`. -/
structure FecParams.WireFormat (P : FecParams) (seqNum : ℕ) (msgs : List (List UInt8))
    (blocks : List FECBlock) : Prop where
  length : blocks.length = msgs.length + P.numFecBlocks
  header : ∀ (k : ℕ) (b : FECBlock), blocks[k]? = some b → b.header.seqNum = seqNum ∧
    b.header.block = k ∧ b.header.nBlocks = msgs.length ∧ b.header.nFecBlocks = P.numFecBlocks
  pktLength : ∀ b ∈ blocks, b.pktLength = fecOverhead + longest msgs
  payload : ∀ (k : ℕ) (msg : List UInt8), msgs[k]? = some msg →
    ∃ b, blocks[k]? = some b ∧ b.payload = some msg

theorem FecParams.IsSequence.wireFormat {P : FecParams} {j : ℕ} {q : Sequence}
    (hq : P.IsSequence j q) {blocks : List FECBlock}
    (h : List.Forall₂ FECBlock.SentAs blocks q.packets) :
    P.WireFormat (P.seqNumAt j) q.msgs blocks := by
  have hlen : blocks.length = q.nPackets := by rw [h.length_eq]; simp [Sequence.packets]
  have hsent := fun (k : ℕ) (b : FECBlock) (hb : blocks[k]? = some b) ↦ FECBlock.sentAs_packet h hb
  refine ⟨?_, ?_, ?_, ?_⟩
  · rw [hlen, Sequence.nPackets, hq.nFecBlocks]
    rfl
  · intro k b hb
    have hk : k < q.nPackets := by rw [← hlen]; exact (List.getElem?_eq_some_iff.mp hb).1
    obtain ⟨hs, hk', hn, hf⟩ := Sequence.header_block hk
    rw [(hsent k b hb).header]
    exact ⟨hs.trans hq.seqNum, hk', hn, hf.trans hq.nFecBlocks⟩
  · intro b hb
    obtain ⟨k, hk⟩ := List.mem_iff_getElem?.mp hb
    rw [FECBlock.pktLength, (hsent k b hk).dataLength, Sequence.size]
    simp only [fecOverhead]
    omega
  · intro k msg hmsg
    have hk : k < q.nBlocks := (List.getElem?_eq_some_iff.mp hmsg).1
    have hk' : k < blocks.length := by
      rw [hlen]
      exact Nat.lt_add_right _ hk
    refine ⟨blocks[k], List.getElem?_eq_getElem hk', ?_⟩
    rw [(hsent k _ (List.getElem?_eq_getElem hk')).payload hk, ← Sequence.msg_eq hk, hmsg]

/-- The packets emitted so far are complete sequences and nothing else. -/
theorem emitted_wireFormat (P : FecParams) (ops : List FECEncoder.Op) (hops : P.Admits ops) :
    ∃ outs e, Run.run FECEncoder.step P.encoder ops = .ok (outs, e) ∧
      (∃ seqs : List (List FECBlock), outs.flatten ++ e.outBlocks = seqs.flatten ∧
        seqs.length = (batches P.numBlocks ops).closed.length ∧
        ∀ (j : ℕ) (c : Batch (List UInt8)) (blocks : List FECBlock),
          (batches P.numBlocks ops).closed[j]? = some c → seqs[j]? = some blocks →
          P.WireFormat ((P.startSeqNum - 1 + j) % 255 + 1) c.items blocks) ∧
      (batches P.numBlocks ops).closed.flatMap Batch.items ++ (batches P.numBlocks ops).pending
        = messages ops ∧
      (∀ c ∈ (batches P.numBlocks ops).closed, 0 < c.items.length ∧ c.items.length ≤ P.numBlocks ∧
        (c.items.length < P.numBlocks → c.flushed = true)) ∧
      e.inBlocks.map FECBlock.payload = (batches P.numBlocks ops).pending.map some ∧
      e.inBlocks.length < P.numBlocks ∧
      (ops.getLast? = some .flush → (batches P.numBlocks ops).pending = []) := by
  obtain ⟨outs, e, qs, hrun, h⟩ := run_represents P hops
  obtain ⟨hitems, hb⟩ := batches_spec P.numBlocks_pos ops
  have hlen : qs.length = (batches P.numBlocks ops).closed.length := by
    simpa using congrArg List.length h.msgs
  obtain ⟨seqs, hseqs, hall⟩ := h.emitted.exists_flatten
  refine ⟨outs, e, hrun, ⟨seqs, hseqs, by rw [hall.length_eq, List.length_map, hlen], ?_⟩, hitems,
    fun c hc ↦ ⟨hb.closed_pos c hc, hb.closed_le c hc, hb.closed_lt c hc⟩, ?_, ?_, ?_⟩
  · intro j c blocks hc hblocks
    obtain ⟨hj, rfl⟩ := List.getElem?_eq_some_iff.mp hblocks
    have hj' : j < qs.length := by simpa [hall.length_eq] using hj
    have hmsgs : c.items = qs[j].msgs := by
      have := congrArg (·[j]?) h.msgs
      simpa [hc, List.getElem?_eq_getElem hj'] using this.symm
    rw [hmsgs]
    refine (h.isSequence j qs[j] (List.getElem?_eq_getElem hj')).wireFormat ?_
    have := (List.forall₂_iff_get.mp hall).2 j hj (by simpa using hj')
    simpa using this
  · have hfits : P.Admits (ops ++ []) := by rwa [List.append_nil]
    rw [h.pending]
    refine List.ext_getElem? fun i ↦ ?_
    rw [List.getElem?_map, List.getElem?_mapIdx, List.getElem?_map]
    cases hm : (batches P.numBlocks ops).pending[i]? with
    | none => rfl
    | some m =>
        exact congrArg some (inBlock_payload (hfits.pending m (List.mem_of_getElem? hm)))
  · rw [h.pending, List.length_mapIdx]
    exact hb.pending_lt
  · intro hlast
    obtain ⟨pre, rfl⟩ := List.getLast?_eq_some_iff.mp hlast
    rw [batches_concat]
    exact Batches.pending_flush _

/-- Two messages, a flush that cuts the sequence short, and a third message. -/
theorem emitted_wireFormat_flushed :
    ∃ outs e, Run.run FECEncoder.step
        (FecParams.encoder { numBlocks := 4, numFecBlocks := 1, maxBlockSize := 10 })
        [.push [7], .push [], .flush, .get, .push [1, 2]] = .ok (outs, e) ∧
      e.inBlocks.map FECBlock.payload = [some [1, 2]] := by
  obtain ⟨outs, e, hrun, -, -, -, hpending, -, -⟩ := emitted_wireFormat
    { numBlocks := 4, numFecBlocks := 1, maxBlockSize := 10 }
    [.push [7], .push [], .flush, .get, .push [1, 2]] (by decide)
  exact ⟨outs, e, hrun, hpending⟩

end WfbBridge
