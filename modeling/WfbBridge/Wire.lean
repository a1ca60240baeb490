import Mathlib
import WfbBridge.Block
import WfbBridge.Fec.Code

/-!
# Sequences on the wire

A `Sequence` is what one turn of `encode_blocks` sends: a sequence number, a
number of FEC packets and the messages.  Its packets are given here by their
bytes, with no reference to the encoder: `Encoder/Format.lean` shows that the
encoder sends them, and the analysis of the decoder starts from them.

The limits under which the code works are fields of the structure, so that every
`Sequence` is one an encoder can send.
-/

namespace WfbBridge

open Gf Fec

/-- The length of a longest message. -/
def longest (msgs : List (List UInt8)) : ℕ := (msgs.map List.length).foldr max 0

theorem le_longest {msgs : List (List UInt8)} {m : List UInt8} (h : m ∈ msgs) :
    m.length ≤ longest msgs := by
  induction msgs with
  | nil => exact absurd h List.not_mem_nil
  | cons a msgs ih =>
      rcases List.mem_cons.mp h with rfl | h
      · exact le_max_left _ _
      · exact (ih h).trans (le_max_right _ _)

theorem longest_le {msgs : List (List UInt8)} {n : ℕ} (h : ∀ m ∈ msgs, m.length ≤ n) :
    longest msgs ≤ n := by
  induction msgs with
  | nil => exact Nat.zero_le n
  | cons a msgs ih =>
      exact max_le (h a List.mem_cons_self) (ih fun m hm ↦ h m (List.mem_cons_of_mem _ hm))

theorem exists_longest {msgs : List (List UInt8)} (h : msgs ≠ []) :
    ∃ m ∈ msgs, m.length = longest msgs := by
  induction msgs with
  | nil => exact absurd rfl h
  | cons a msgs ih =>
      have hmax : longest (a :: msgs) = max a.length (longest msgs) := rfl
      by_cases hle : longest msgs ≤ a.length
      · exact ⟨a, List.mem_cons_self, by rw [hmax, max_eq_left hle]⟩
      · have hne : msgs ≠ [] := by
          rintro rfl
          exact hle (Nat.zero_le _)
        obtain ⟨m, hm, hlen⟩ := ih hne
        exact ⟨m, List.mem_cons_of_mem _ hm, by rw [hmax, max_eq_right (by omega), hlen]⟩

/-- The bytes of a message that enter the code: its length,
its bytes and zeros up to the block size. -/
def word (size : ℕ) (msg : List UInt8) : List UInt8 :=
  lengthBytes msg.length ++ msg ++ List.replicate (size - (msg.length + 2)) 0

@[simp] theorem length_lengthBytes (n : ℕ) : (lengthBytes n).length = 2 := rfl

theorem length_word {size : ℕ} {msg : List UInt8} (h : msg.length + 2 ≤ size) :
    (word size msg).length = size := by
  simp only [word, List.length_append, length_lengthBytes, List.length_replicate]
  omega

/-- A shorter block holds a prefix of the word, as long as the message fits. -/
theorem take_word {size size' : ℕ} {msg : List UInt8} (h : msg.length + 2 ≤ size)
    (hs : size ≤ size') : (word size' msg).take size = word size msg := by
  have hlen : (lengthBytes msg.length ++ msg).length = msg.length + 2 := by
    rw [List.length_append, length_lengthBytes, Nat.add_comm]
  rw [word, word, List.take_append, hlen, List.take_of_length_le (hlen.trans_le h),
    List.take_replicate, Nat.min_eq_left (by omega)]

/-- The length field read back. -/
theorem lengthBytes_toNat {n : ℕ} (h : n < 65536) :
    (UInt8.ofNat n).toNat + 256 * (UInt8.ofNat (n / 256)).toNat = n := by
  simp only [UInt8.toNat_ofNat', Nat.reducePow]
  omega

section Prefix

variable {b : FECBlock} {a₀ a₁ a₂ a₃ : UInt8} {size : ℕ} {msg rest : List UInt8}

/-- The length of the message at the start of a block. -/
theorem FECBlock.length_of_word (hdata : b.data = [a₀, a₁, a₂, a₃] ++ word size msg ++ rest)
    (hlt : msg.length < 65536) : b.length = msg.length := by
  simp only [FECBlock.length, FECBlock.header, FECBlock.byte, hdata]
  exact lengthBytes_toNat hlt

/-- The message at the start of a block. -/
theorem FECBlock.payload_of_word (hdata : b.data = [a₀, a₁, a₂, a₃] ++ word size msg ++ rest)
    (hlt : msg.length < 65536) : b.payload = some msg := by
  have hdrop : b.data.drop fecOverhead =
      msg ++ (List.replicate (size - (msg.length + 2)) 0 ++ rest) := by
    rw [hdata, word, ← List.append_assoc msg]
    rfl
  have hlen := congrArg List.length hdrop
  rw [List.length_drop, List.length_append] at hlen
  have h6 := b.header_le
  rw [FECBlock.payload, length_of_word hdata hlt, if_pos (by omega), hdrop, List.take_left]

end Prefix

/-- A sequence as it is sent. -/
structure Sequence where
  seqNum : ℕ
  nFecBlocks : ℕ
  msgs : List (List UInt8)
  seqNum_pos : 0 < seqNum
  seqNum_lt : seqNum < 256
  nFecBlocks_pos : 0 < nFecBlocks
  nFecBlocks_le : nFecBlocks ≤ 128
  msgs_ne : msgs ≠ []
  msgs_le : msgs.length ≤ 128
  msg_le : ∀ m ∈ msgs, m.length ≤ 65529

namespace Sequence

variable (q : Sequence)

/-- `n_blocks`. -/
def nBlocks : ℕ := q.msgs.length

/-- The number of packets. -/
def nPackets : ℕ := q.nBlocks + q.nFecBlocks

/-- The block size: a longest message and its length field. -/
def size : ℕ := longest q.msgs + 2

/-- Message `i`. -/
def msg (i : ℕ) : List UInt8 := q.msgs.getD i []

/-- The part of a header that is not coded. -/
def tag (k : ℕ) : List UInt8 :=
  [UInt8.ofNat q.seqNum, UInt8.ofNat k, UInt8.ofNat q.nBlocks, UInt8.ofNat q.nFecBlocks]

/-- Byte `p` of FEC packet `r`, as a field element. -/
def code (r p : ℕ) : Gf :=
  ∑ i ∈ Finset.range q.nBlocks, coeff r i * byteAt (word q.size (q.msg i)) p

/-- The coded bytes of FEC packet `r`. -/
def parity (r : ℕ) : List UInt8 := (List.range q.size).map fun p ↦ ofGf (q.code r p)

/-- The bytes of packet `k` after the tag. -/
def body (k : ℕ) : List UInt8 :=
  if k < q.nBlocks then word q.size (q.msg k) else q.parity (k - q.nBlocks)

/-- Packet `k`: first the data packets, then the FEC packets. -/
def packet (k : ℕ) : List UInt8 := q.tag k ++ q.body k

/-- All packets of the sequence. -/
def packets : List (List UInt8) := (List.range q.nPackets).map q.packet

/-! ## Packets as blocks -/

variable {q} {i k : ℕ}

theorem nBlocks_pos : 0 < q.nBlocks := List.length_pos_of_ne_nil q.msgs_ne

theorem nPackets_le : q.nPackets ≤ 256 := by
  have := q.msgs_le
  have := q.nFecBlocks_le
  simp only [nPackets, nBlocks]
  omega

theorem msg_eq (hi : i < q.nBlocks) : q.msgs[i]? = some (q.msg i) := by
  rw [msg, List.getD_eq_getElem?_getD, List.getElem?_eq_getElem hi, Option.getD_some]

theorem msg_mem (hi : i < q.nBlocks) : q.msg i ∈ q.msgs := List.mem_of_getElem? (msg_eq hi)

theorem map_msg_range : (List.range q.nBlocks).map q.msg = q.msgs := by
  refine List.ext_getElem? fun i ↦ ?_
  by_cases hi : i < q.nBlocks
  · simp [List.getElem?_range hi, msg_eq hi]
  · rw [List.getElem?_eq_none (by simpa using hi), List.getElem?_eq_none (Nat.le_of_not_lt hi)]

theorem mapIdx_msgs {β : Type*} (f : ℕ → List UInt8 → β) :
    q.msgs.mapIdx f = (List.range q.nBlocks).map fun i ↦ f i (q.msg i) := by
  refine List.ext_getElem (by simp [nBlocks]) fun i hi hi' ↦ ?_
  have hi'' : i < q.msgs.length := by simpa using hi
  simp [msg, List.getElem?_eq_getElem hi'']

theorem length_msg_le (i : ℕ) : (q.msg i).length + 2 ≤ q.size := by
  by_cases hi : i < q.nBlocks
  · exact Nat.add_le_add_right (le_longest (msg_mem hi)) 2
  · rw [msg, List.getD_eq_default _ _ (Nat.le_of_not_lt hi)]
    simp [size]

theorem size_le : q.size ≤ 65531 := Nat.add_le_add_right (longest_le q.msg_le) 2

theorem two_le_size : 2 ≤ q.size := Nat.le_add_left 2 _

@[simp] theorem length_tag (k : ℕ) : (q.tag k).length = 4 := rfl

@[simp] theorem length_parity (r : ℕ) : (q.parity r).length = q.size := by simp [parity]

@[simp] theorem length_body (k : ℕ) : (q.body k).length = q.size := by
  rw [body]
  split
  · exact length_word (length_msg_le k)
  · exact length_parity _

@[simp] theorem length_packet (k : ℕ) : (q.packet k).length = q.size + 4 := by
  rw [packet, List.length_append, length_tag, length_body, Nat.add_comm]

theorem body_of_lt (hk : k < q.nBlocks) : q.body k = word q.size (q.msg k) := if_pos hk

theorem body_add (r : ℕ) : q.body (q.nBlocks + r) = q.parity r := by
  rw [body, if_neg (Nat.not_lt.mpr (Nat.le_add_right _ _)), Nat.add_sub_cancel_left]

theorem byteAt_parity {r p : ℕ} (hp : p < q.size) : byteAt (q.parity r) p = q.code r p := by
  rw [byteAt_of_getElem? (x := ofGf (q.code r p)) (by simp [parity, hp]), toGf_ofGf]

theorem packets_eq : q.packets = (List.range q.nBlocks).map q.packet ++
    (List.range q.nFecBlocks).map fun r ↦ q.packet (q.nBlocks + r) := by
  rw [packets, nPackets, List.range_add, List.map_append, List.map_map]
  rfl

variable (q k) in
/-- Packet `k` as the receiver holds it. -/
def block : FECBlock where
  data := q.packet k
  dataLength := (q.packet k).length
  header_le := by
    rw [length_packet]
    exact Nat.add_le_add_right q.two_le_size 4

theorem ofPacket_packet (k : ℕ) : FECBlock.ofPacket (q.packet k) = .ok (q.block k) := by
  have hu : u16 (q.packet k).length = (q.packet k).length := by
    refine u16_of_lt ?_
    have := q.size_le
    rw [length_packet]
    omega
  have hle : fecOverhead ≤ u16 (q.packet k).length := by
    rw [hu]
    exact (q.block k).header_le
  rw [FECBlock.ofPacket, dif_pos hle]
  congr 1
  exact FECBlock.ext (by simp only [hu, List.take_length, block]) hu

@[simp] theorem fecData_block (k : ℕ) : (q.block k).fecData = q.body k := rfl

@[simp] theorem length_data_block (k : ℕ) : (q.block k).data.length = q.size + 4 := length_packet k

/-- The fields of a header that are not coded. -/
theorem header_block (hk : k < q.nPackets) : (q.block k).header.seqNum = q.seqNum ∧
    (q.block k).header.block = k ∧ (q.block k).header.nBlocks = q.nBlocks ∧
    (q.block k).header.nFecBlocks = q.nFecBlocks := by
  have := q.seqNum_lt
  have := q.nPackets_le
  have := q.nFecBlocks_le
  have : q.nBlocks ≤ 128 := q.msgs_le
  refine ⟨?_, ?_, ?_, ?_⟩ <;> exact UInt8.toNat_ofNat_of_lt' (by simp only [UInt8.size]; omega)

theorem isDataBlock_block (hk : k < q.nPackets) : (q.block k).isDataBlock ↔ k < q.nBlocks := by
  obtain ⟨-, hb, hn, -⟩ := header_block hk
  rw [FECBlock.isDataBlock, hb, hn]

theorem data_block (hk : k < q.nBlocks) :
    (q.block k).data = q.tag k ++ word q.size (q.msg k) ++ [] := by
  rw [List.append_nil, ← body_of_lt hk]
  rfl

theorem length_msg_lt (hk : k < q.nBlocks) : (q.msg k).length < 65536 := by
  have := q.msg_le _ (msg_mem hk)
  omega

theorem length_block (hk : k < q.nBlocks) : (q.block k).length = (q.msg k).length :=
  FECBlock.length_of_word (data_block hk) (length_msg_lt hk)

theorem blockSize_block (hk : k < q.nBlocks) :
    (q.block k).blockSize = (q.msg k).length + 2 := by
  have := q.msg_le _ (msg_mem hk)
  rw [FECBlock.blockSize, length_block hk]
  exact u16_of_lt (by omega)

theorem payload_block (hk : k < q.nBlocks) : (q.block k).payload = some (q.msg k) :=
  FECBlock.payload_of_word (data_block hk) (length_msg_lt hk)

end Sequence

end WfbBridge
