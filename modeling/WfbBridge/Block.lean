import Mathlib
import WfbBridge.Fec.Arith

/-!
# FEC blocks

`FECHeader` and `FECBlock` of `fec.hh`.  A block is its allocation `m_data` and
`m_data_length`.  The packed header is the first six bytes, with the length in
little endian, so its last two bytes are also the first two of `fec_data()`.

The invariant of the structure is that the header lies inside the allocation; a
constructor that would build a smaller block stops with `Fault.header`.
-/

namespace WfbBridge

/-- A value narrowed to `uint8_t`. -/
def u8 (n : ℕ) : ℕ := n % 256

/-- A value narrowed to `uint16_t`. -/
def u16 (n : ℕ) : ℕ := n % 65536

theorem u8_of_lt {n : ℕ} (h : n < 256) : u8 n = n := Nat.mod_eq_of_lt h

theorem u16_of_lt {n : ℕ} (h : n < 65536) : u16 n = n := Nat.mod_eq_of_lt h

/-- `FECHeader`. -/
structure FECHeader where
  seqNum : ℕ := 0
  block : ℕ := 0
  nBlocks : ℕ := 0
  nFecBlocks : ℕ := 0
  length : ℕ := 0
deriving DecidableEq, Repr

/-- `FEC_OVERHEAD`, that is `sizeof(FECHeader)`. -/
def fecOverhead : ℕ := 6

/-- The two bytes of a length. -/
def lengthBytes (n : ℕ) : List UInt8 := [UInt8.ofNat n, UInt8.ofNat (n / 256)]

/-- The header as it lies in memory. -/
def FECHeader.bytes (h : FECHeader) : List UInt8 :=
  [UInt8.ofNat h.seqNum, UInt8.ofNat h.block, UInt8.ofNat h.nBlocks, UInt8.ofNat h.nFecBlocks] ++
    lengthBytes h.length

@[simp] theorem FECHeader.length_bytes (h : FECHeader) : h.bytes.length = fecOverhead := rfl

/-- `FECBlock`. -/
structure FECBlock where
  data : List UInt8
  dataLength : ℕ
  header_le : fecOverhead ≤ data.length
deriving DecidableEq

namespace FECBlock

@[ext] theorem ext {b c : FECBlock} (hd : b.data = c.data) (hl : b.dataLength = c.dataLength) :
    b = c := by
  cases b
  cases c
  simp_all

/-- Byte `i` of the allocation. -/
def byte (b : FECBlock) (i : ℕ) : ℕ := (b.data.getD i 0).toNat

/-- `header()`. -/
def header (b : FECBlock) : FECHeader where
  seqNum := b.byte 0
  block := b.byte 1
  nBlocks := b.byte 2
  nFecBlocks := b.byte 3
  length := b.byte 4 + 256 * b.byte 5

/-- `pkt_length()`. -/
def pktLength (b : FECBlock) : ℕ := b.dataLength

/-- `data_length()`. -/
def length (b : FECBlock) : ℕ := b.header.length

/-- `block_size()`: the data and its length field. -/
def blockSize (b : FECBlock) : ℕ := u16 (b.length + 2)

/-- `adjust_block_size`. -/
def adjustBlockSize (b : FECBlock) (blockSize : ℕ) : FECBlock :=
  { b with dataLength := u16 (blockSize + fecOverhead - 2) }

/-- `is_data_block()`. -/
def isDataBlock (b : FECBlock) : Prop := b.header.block < b.header.nBlocks

instance (b : FECBlock) : Decidable b.isDataBlock := inferInstanceAs (Decidable (_ < _))

/-- `fec_data()`, up to the end of the allocation. -/
def fecData (b : FECBlock) : List UInt8 := b.data.drop (fecOverhead - 2)

/-- The bytes `[pkt_data(), pkt_data() + pkt_length())` that are sent. -/
def packet (b : FECBlock) : List UInt8 := b.data.take b.dataLength

/-- The bytes `[data(), data() + data_length())`;
`none` when the range leaves the allocation. -/
def payload (b : FECBlock) : Option (List UInt8) :=
  if fecOverhead + b.length ≤ b.data.length then some ((b.data.drop fecOverhead).take b.length)
  else none

/-- What is read has the length of the header, and lies in the allocation. -/
theorem length_payload {b : FECBlock} {msg : List UInt8} (h : b.payload = some msg) :
    msg.length = b.length ∧ fecOverhead + b.length ≤ b.data.length := by
  rw [payload] at h
  split at h
  case isTrue hle =>
      refine ⟨?_, hle⟩
      rw [← Option.some.inj h, List.length_take, List.length_drop]
      omega
  case isFalse => cases h

/-- Overwrite the bytes from `off` on. -/
def write (b : FECBlock) (off : ℕ) (bytes : List UInt8) : FECBlock where
  data := b.data.take off ++ bytes ++ b.data.drop (off + bytes.length)
  dataLength := b.dataLength
  header_le := by
    have := b.header_le
    simp only [List.length_append, List.length_take, List.length_drop]
    omega

theorem data_write (b : FECBlock) (off : ℕ) (bytes : List UInt8) :
    (b.write off bytes).data = b.data.take off ++ bytes ++ b.data.drop (off + bytes.length) := rfl

theorem write_fecData (b : FECBlock) : b.write (fecOverhead - 2) b.fecData = b := by
  refine ext ?_ rfl
  have hdrop : b.data.drop (fecOverhead - 2 + b.fecData.length) = [] := by
    rw [← List.drop_drop]
    exact List.drop_length
  rw [data_write, hdrop, List.append_nil, fecData, List.take_append_drop]

/-- Copy a message to `data()`. -/
def fill (b : FECBlock) (msg : List UInt8) : Except Fault FECBlock :=
  if fecOverhead + msg.length ≤ b.data.length then .ok (b.write fecOverhead msg)
  else .error .bytes

/-- `header()->block = n`. -/
def setBlock (b : FECBlock) (n : ℕ) : FECBlock := b.write 1 [UInt8.ofNat n]

/-- `header()->n_blocks = n`. -/
def setNBlocks (b : FECBlock) (n : ℕ) : FECBlock := b.write 2 [UInt8.ofNat n]

/-- A zero-filled block of `size` bytes with a header. -/
def zeroed (h : FECHeader) (size : ℕ) : Except Fault FECBlock :=
  if hs : fecOverhead ≤ size then
    .ok { data := h.bytes ++ List.replicate (size - fecOverhead) 0
          dataLength := size
          header_le := by simp }
  else .error .header

/-- The constructor from the fields of the header. -/
def new (seqNum block nBlocks nFecBlocks maxBlockLen dataLength : ℕ) : Except Fault FECBlock :=
  zeroed ⟨seqNum, block, nBlocks, nFecBlocks, dataLength⟩ (u16 (maxBlockLen + fecOverhead - 2))

/-- The constructor from a packet buffer; its length is passed as a `uint16_t`. -/
def ofPacket (buf : List UInt8) : Except Fault FECBlock :=
  if h : fecOverhead ≤ u16 buf.length then
    .ok { data := buf.take (u16 buf.length)
          dataLength := u16 buf.length
          header_le := by
            have : u16 buf.length ≤ buf.length := Nat.mod_le _ _
            rw [List.length_take]
            omega }
  else .error .header

/-- The constructor from an existing header. -/
def ofHeader (h : FECHeader) (blockLength : ℕ) : Except Fault FECBlock :=
  zeroed { h with length := u16 (blockLength + 65536 - 2) } (u16 (blockLength + fecOverhead - 2))

end FECBlock

end WfbBridge
