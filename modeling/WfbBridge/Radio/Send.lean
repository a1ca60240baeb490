import Mathlib
import WfbBridge.Block

/-!
# Radio frames

`RawSendSocket::send` of `raw_socket.cc`.  A frame is a radiotap header, which is for
the driver, an 802.11 header and the message.  The first byte of the receiver address
in the 802.11 header is used for the port and the direction.

Two bytes of a frame are not determined by the arguments of `send`: `pad2` of the legacy
radiotap header is not initialized, and data frames carry the time.
-/

namespace WfbBridge

/-- `LinkType`. -/
inductive LinkType where
  | dataLink
  | fecLink
  | wfbLink
  | shortDataLink
  | rtsDataLink
deriving DecidableEq, Repr

/-- `RawSendSocket`. -/
structure RawSendSocket where
  ground : Bool
  mcs : Bool := false
  stbc : Bool := false
  ldpc : Bool := false
  mtu : ℕ
deriving DecidableEq

namespace RawSendSocket

/-- The rate of the legacy header. -/
def legacyRate (datarate : UInt8) : UInt8 :=
  match datarate.toNat with
  | 0 => 11
  | 1 => 22
  | 2 => 36
  | 3 => 48
  | 4 => 72
  | 5 => 108
  | _ => 22

/-- `radiotap_header_legacy`. -/
def radiotapHeaderLegacy (pad2 datarate : UInt8) : List UInt8 :=
  [0, 0, 12, 0, 0x04, 0x80, 0, 0, legacyRate datarate, pad2, 0x08, 0]

/-- `radiotap_header_mcs`. -/
def radiotapHeaderMcs (stbc ldpc : Bool) (datarate : UInt8) : List UInt8 :=
  let mcsKnown : UInt8 := 0x02 ||| 0x01 ||| 0x04 ||| 0x20 ||| 0x10
  let mcsFlags : UInt8 := (if stbc then 0x20 else 0) ||| (if ldpc then 0x10 else 0)
  [0, 0, 13, 0, 0, 0x80, 0x08, 0, 0x08, 0, mcsKnown, mcsFlags, datarate]

/-- The radiotap header of a frame. -/
def radiotapHeader (s : RawSendSocket) (pad2 datarate : UInt8) : List UInt8 :=
  if s.mcs then radiotapHeaderMcs s.stbc s.ldpc datarate else radiotapHeaderLegacy pad2 datarate

/-- `ieee_header_data_short`. -/
def ieeeHeaderDataShort : List UInt8 := [0x08, 0x01, 0, 0, 0xff]

/-- `ieee_header_rts`. -/
def ieeeHeaderRts : List UInt8 := [0xb4, 0x01, 0, 0, 0xff]

/-- `ieee_header_data`. -/
def ieeeHeaderData : List UInt8 :=
  [0x08, 0x02, 0, 0, 0x01, 0, 0, 0, 0, 0, 0x13, 0x22, 0x33, 0x44, 0x55, 0x66, 0, 0, 0, 0, 0, 0, 0,
    0]

/-- The 802.11 header of a link, with the time in data frames. -/
def ieeeHeader (now : UInt8) : LinkType → List UInt8
  | .shortDataLink => ieeeHeaderDataShort
  | .rtsDataLink => ieeeHeaderRts
  | _ => ieeeHeaderData.set 5 now

/-- The port and the direction. -/
def portByte (ground : Bool) (port : UInt8) : UInt8 :=
  ((port &&& 0xf) <<< 4) ||| (if ground then 0xd else 0x5)

/-- The size of `m_send_buf`: the larger of the radiotap headers, and the mtu. -/
def sendBufSize (s : RawSendSocket) : ℕ := 13 + s.mtu

/-- `send`: the bytes handed to `::send`, or `none` if the message is refused. -/
def send (s : RawSendSocket) (pad2 now : UInt8) (msg : List UInt8) (port : UInt8) (type : LinkType)
    (datarate : UInt8) : Except Fault (Option (List UInt8)) :=
  let rt := s.radiotapHeader pad2 datarate
  let ieee := ieeeHeader now type
  -- the headers are copied before the size of the message is checked
  if s.sendBufSize < rt.length + ieee.length then .error .bytes
  else if s.mtu < msg.length + ieee.length then .ok none
  else .ok (some (rt ++ ieee.set 4 (portByte s.ground port) ++ msg))

theorem length_radiotapHeader_le (s : RawSendSocket) (pad2 datarate : UInt8) :
    (s.radiotapHeader pad2 datarate).length ≤ 13 := by
  rw [radiotapHeader]
  split <;> simp [radiotapHeaderMcs, radiotapHeaderLegacy]

variable {s : RawSendSocket} {pad2 now datarate port : UInt8} {type : LinkType} {msg : List UInt8}

/-- A message that fits is sent. -/
theorem send_eq (hfit : msg.length + (ieeeHeader now type).length ≤ s.mtu) :
    s.send pad2 now msg port type datarate = .ok (some (s.radiotapHeader pad2 datarate ++
      (ieeeHeader now type).set 4 (portByte s.ground port) ++ msg)) := by
  have hrt := s.length_radiotapHeader_le pad2 datarate
  rw [send, if_neg (by rw [sendBufSize]; omega), if_neg (Nat.not_lt.mpr hfit)]

/-- What is sent. -/
theorem send_eq_some {frame : List UInt8}
    (h : s.send pad2 now msg port type datarate = .ok (some frame)) :
    frame = s.radiotapHeader pad2 datarate ++
      ((ieeeHeader now type).set 4 (portByte s.ground port) ++ msg) := by
  simp only [send] at h
  split at h
  · cases h
  split at h
  · cases h
  · rw [← List.append_assoc]
    exact (Option.some.inj (Except.ok.inj h)).symm

/-- A message that is sent fits. -/
theorem le_mtu_of_send {frame : List UInt8}
    (h : s.send pad2 now msg port type datarate = .ok (some frame)) :
    msg.length + (ieeeHeader now type).length ≤ s.mtu := by
  simp only [send] at h
  split at h
  · cases h
  split at h
  case isTrue => cases h
  case isFalse hfit => exact Nat.not_lt.mp hfit

/-- The lengths of the 802.11 headers. -/
theorem length_ieeeHeader (now : UInt8) (type : LinkType) :
    (ieeeHeader now type).length = 5 ∨ (ieeeHeader now type).length = 24 := by
  cases type <;> simp [ieeeHeader, ieeeHeaderDataShort, ieeeHeaderRts, ieeeHeaderData]

/-- The two nibbles of the port byte. -/
theorem portByte_nibbles (ground : Bool) (hport : port.toNat < 16) :
    (portByte ground port).toNat &&& 0x0f = (if ground then 0xd else 0x5) ∧
      (portByte ground port >>> 4).toNat = port.toNat := by
  have hall : ∀ p < 16, ∀ g,
    (portByte g (UInt8.ofNat p)).toNat &&& 0x0f = (if g then 0xd else 0x5) ∧
      (portByte g (UInt8.ofNat p) >>> 4).toNat = p := by decide
  simpa only [UInt8.ofNat_toNat] using hall port.toNat hport ground

end RawSendSocket

end WfbBridge
