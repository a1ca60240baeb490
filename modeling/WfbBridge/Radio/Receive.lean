import Mathlib
import WfbBridge.Library.Checked
import WfbBridge.Radio.Iterator
import WfbBridge.Radio.Send

/-!
# Captured frames

The capture filter and `RawReceiveSocket::receive` of `raw_socket.cc`.  What libpcap
hands over is the bytes it captured and the length the frame had on the air, which is
not smaller.  A read at an index past the captured bytes stops `receive` with a fault.

Of the radiotap header only `ieee80211_radiotap_iterator_init` is looked at here.  The iteration
over the fields stays inside the length it was initialized with (`Radiotap.lean`), and only fills
in the signal strength and its like; what it makes of the fields is in `Rssi.lean`.
-/

namespace WfbBridge

open Checked

/-! ## The capture filter -/

/-- `ether[off:size]`: a number in big endian, if the frame is long enough. -/
def ether (ieee : List UInt8) (off size : ℕ) : Option ℕ :=
  if off + size ≤ ieee.length then
    some (((ieee.drop off).take size).foldl (fun n b ↦ 256 * n + b.toNat) 0)
  else none

/-- The radiotap length field. -/
def rtLength (cap : List UInt8) : Option ℕ := (readLe16 cap 2).toOption

/-- `filter_gnd` and `filter_air`, on the frame from the 802.11 header on. -/
def acceptsIeee (ground : Bool) (ieee : List UInt8) : Bool :=
  (ether ieee 0 2 = some 0x0801 ∨ ether ieee 0 2 = some 0x0802 ∨
    ether ieee 0 4 = some 0xb4010000) ∧
  (ether ieee 4 1).map (· &&& 0x0f) = some (if ground then 0x05 else 0x0d)

/-- The filter on a captured frame. -/
def captureFilter (ground : Bool) (cap : List UInt8) : Bool :=
  match rtLength cap with
  | none => false
  | some rt => acceptsIeee ground (cap.drop rt)

/-! ## The radiotap header -/

/-- `ieee80211_radiotap_iterator_init`: whether it accepts the header. -/
def radiotapIteratorInit (buf : List UInt8) (maxLength : ℕ) : Except Fault Bool :=
  (RadiotapIterator.init buf maxLength).map Option.isSome

theorem radiotapIteratorInit_eq_true {buf : List UInt8} {maxLength : ℕ} :
    radiotapIteratorInit buf maxLength = .ok true ↔
      ∃ it, RadiotapIterator.init buf maxLength = .ok (some it) := by
  rw [radiotapIteratorInit]
  rcases RadiotapIterator.init buf maxLength with e | _ | it <;> simp [Except.map]

/-- A well-formed radiotap header: version 0, its own length in the length field, and its `present`
words, the last of which says that no other follows, inside it. -/
structure WellFormedRadiotap (rt : List UInt8) : Prop where
  version : readAt .bytes rt 0 = (.ok 0 : Except Fault UInt8)
  length : readLe16 rt 2 = .ok rt.length
  present : ∃ n, 8 + 4 * n ≤ rt.length ∧
    (∀ i < n, ∃ word, readLe32 rt (4 + 4 * i) = .ok word ∧ hasExt word = true) ∧
    ∃ word, readLe32 rt (4 + 4 * n) = .ok word ∧ hasExt word = false

theorem map_hasExt_eq_ok {x : Except Fault ℕ} {ext : Bool} :
    x.map hasExt = .ok ext ↔ ∃ word, x = .ok word ∧ hasExt word = ext := by
  cases x <;> simp [Except.map]

instance (rt : List UInt8) : Decidable (WellFormedRadiotap rt) :=
  decidable_of_iff (readAt .bytes rt 0 = (.ok 0 : Except Fault UInt8) ∧
      readLe16 rt 2 = .ok rt.length ∧
      ∃ n < rt.length, 8 + 4 * n ≤ rt.length ∧
        (∀ i < n, (readLe32 rt (4 + 4 * i)).map hasExt = .ok true) ∧
        (readLe32 rt (4 + 4 * n)).map hasExt = .ok false) (by
    constructor
    · rintro ⟨hversion, hlength, n, -, hn, hext, hlast⟩
      exact ⟨hversion, hlength, n, hn, fun i hi ↦ map_hasExt_eq_ok.mp (hext i hi),
        map_hasExt_eq_ok.mp hlast⟩
    · rintro ⟨hversion, hlength, n, hn, hext, hlast⟩
      exact ⟨hversion, hlength, n, by omega, hn, fun i hi ↦ map_hasExt_eq_ok.mpr (hext i hi),
        map_hasExt_eq_ok.mpr hlast⟩)

section Prefix

variable {rt rest : List UInt8} {i : ℕ}

theorem readLe16_append (h : i + 2 ≤ rt.length) : readLe16 (rt ++ rest) i = readLe16 rt i := by
  rw [readLe16, readLe16, readAt_append_left _ _ (by omega), readAt_append_left _ _ (by omega)]

theorem readLe32_append (h : i + 4 ≤ rt.length) : readLe32 (rt ++ rest) i = readLe32 rt i := by
  rw [readLe32, readLe32, readLe16_append (by omega), readLe16_append (by omega)]

/-- The loop over the `present` words comes to the last one. -/
theorem skipPresent_ok (rest : List UInt8) {n : ℕ} (hn : 8 + 4 * n ≤ rt.length)
    (hlast : ∃ word, readLe32 rt (4 + 4 * n) = .ok word ∧ hasExt word = false) (j fuel : ℕ)
    (hfuel : j < fuel) (hj : j ≤ n)
    (hext : ∀ i < n, ∃ word, readLe32 rt (4 + 4 * i) = .ok word ∧ hasExt word = true) :
    ∃ arg, RadiotapIterator.skipPresent (rt ++ rest) rt.length fuel (4 + 4 * (n - j)) =
      .ok (some arg) := by
  induction j generalizing fuel with
  | zero =>
      obtain ⟨fuel, rfl⟩ := Nat.exists_eq_add_one.mpr hfuel
      obtain ⟨word, hword, hlast⟩ := hlast
      rw [RadiotapIterator.skipPresent, Nat.sub_zero, readLe32_append (by omega), hword, ok_bind,
        hlast]
      exact ⟨_, rfl⟩
  | succ j ih =>
      obtain ⟨fuel, rfl⟩ := Nat.exists_eq_add_one.mpr (Nat.zero_lt_of_lt hfuel)
      obtain ⟨word, hword, hmore⟩ := hext (n - (j + 1)) (by omega)
      rw [RadiotapIterator.skipPresent, readLe32_append (by omega), hword, ok_bind, if_pos hmore,
        if_neg (by omega), show 4 + 4 * (n - (j + 1)) + 4 = 4 + 4 * (n - j) by omega]
      exact ih fuel (by omega) (by omega)

theorem WellFormedRadiotap.length_ge (h : WellFormedRadiotap rt) : 8 ≤ rt.length := by
  obtain ⟨n, hn, -⟩ := h.present
  omega

/-- The iterator accepts a well-formed header. -/
theorem WellFormedRadiotap.init (h : WellFormedRadiotap rt) {len : ℕ} (hle : rt.length ≤ len)
    (hlt : len < 2147483648) : radiotapIteratorInit (rt ++ rest) len = .ok true := by
  have h8 := h.length_ge
  obtain ⟨n, hn, hext, hlast⟩ := h.present
  rw [radiotapIteratorInit_eq_true, RadiotapIterator.init, if_neg (by omega),
    readAt_append_left _ _ (by omega), h.version, ok_bind, if_neg (by simp),
    readLe16_append (by omega), h.length, ok_bind, if_neg (Nat.not_lt.mpr hle),
    readLe32_append (by omega)]
  cases n with
  | zero =>
      obtain ⟨word, hword, hlast⟩ := hlast
      rw [hword, ok_bind, hlast]
      exact ⟨_, rfl⟩
  | succ n =>
      obtain ⟨word, hword, hmore⟩ := hext 0 (by omega)
      obtain ⟨arg, hskip⟩ := skipPresent_ok rest hn hlast n rt.length (by omega) (by omega) hext
      rw [Nat.add_sub_cancel_left] at hskip
      rw [hword, ok_bind, if_pos hmore, if_neg (by omega), hskip]
      exact ⟨_, rfl⟩

end Prefix

/-! ## `receive` -/

/-- `monitor_message_t`. -/
structure MonitorMessage where
  data : List UInt8
  port : ℕ
  linkType : LinkType
  latencyMs : Option ℕ := none
deriving DecidableEq

namespace RawReceiveSocket

/-- The length of the 802.11 header and the link type,
by the second byte of the frame control field. -/
def frameKind (b : UInt8) : Option (ℕ × LinkType) :=
  if b = 0x01 then some (0x05, .shortDataLink)
  else if b = 0x02 then some (0x18, .dataLink)
  else none

/-- `latency_ms`: the time stamp is in the longer header only. -/
def latency (curTime : ℕ) (cap : List UInt8) (rtHeaderLen n80211HeaderLength : ℕ) :
    Except Fault (Option ℕ) :=
  if 5 < n80211HeaderLength then do
    let sendTime ← readAt .bytes cap (rtHeaderLen + 5)
    .ok (some (if sendTime.toNat < curTime then curTime - sendTime.toNat
      else curTime + 256 - sendTime.toNat))
  else .ok none

/-- The checks on the length and the radiotap header, and the copy into the message.  The lengths
are `uint32_t`, and 4 is for the FCS. -/
def payload (cap : List UInt8) (len headerLen : ℕ) : Except Fault (Option (List UInt8)) :=
  if len < headerLen then .ok none
  else do
    let valid ← radiotapIteratorInit cap len
    if valid then
      let packetLen := (len + 4294967296 - (headerLen + 4)) % 4294967296
      if packetLen ≠ 0 ∧ cap.length < headerLen + packetLen then .error .bytes
      else .ok (some ((cap.drop headerLen).take packetLen))
    else .ok none

/-- `receive` on a captured frame: `none` for an error return. -/
def receiveFrame (curTime : ℕ) (cap : List UInt8) (len : ℕ) :
    Except Fault (Option MonitorMessage) := do
  let rtHeaderLen ← readLe16 cap 2
  let kind ← readAt .bytes cap (rtHeaderLen + 1)
  match frameKind kind with
  | none => .ok none
  | some (n80211HeaderLength, linkType) => do
      let portByte ← readAt .bytes cap (rtHeaderLen + 4)
      let latencyMs ← latency curTime cap rtHeaderLen n80211HeaderLength
      let data? ← payload cap len (rtHeaderLen + n80211HeaderLength)
      .ok (data?.map fun data ↦ { data, port := (portByte >>> 4).toNat, linkType, latencyMs })

/-- The port of a message is in the byte after the frame control and the duration. -/
theorem receiveFrame_port {curTime len rt : ℕ} {cap : List UInt8} {b : UInt8} {msg : MonitorMessage}
    (hrt : readLe16 cap 2 = .ok rt) (hb : cap[rt + 4]? = some b)
    (h : receiveFrame curTime cap len = .ok (some msg)) : msg.port = (b >>> 4).toNat := by
  rw [receiveFrame, hrt, ok_bind] at h
  obtain ⟨kind, -, h⟩ := bind_eq_ok.mp h
  cases hkind : frameKind kind with
  | none => simp [hkind] at h
  | some k =>
      simp only [hkind] at h
      obtain ⟨portByte, hport, h⟩ := bind_eq_ok.mp h
      obtain ⟨latencyMs, -, h⟩ := bind_eq_ok.mp h
      obtain ⟨data?, -, h⟩ := bind_eq_ok.mp h
      obtain ⟨data, -, rfl⟩ := Option.map_eq_some_iff.mp (Except.ok.inj h)
      rw [readAt_eq_ok.mp hport] at hb
      rw [Option.some.inj hb]

/-- What `pcap_next_ex` comes back with, in the end. -/
inductive Capture where
  | timeout
  | error
  | frame (cap : List UInt8) (len : ℕ)

/-- `receive`: an empty message stands for a timeout. -/
def receive (curTime : ℕ) : Capture → Except Fault (Option MonitorMessage)
  | .timeout => .ok (some { data := [], port := 0, linkType := .dataLink })
  | .error => .ok none
  | .frame cap len => receiveFrame curTime cap len

/-! ## The round trip -/

section RoundTrip

variable {rt ieee msg fcs : List UInt8}

/-- The message is what is left without the headers and the FCS. -/
theorem payload_eq (hrt : WellFormedRadiotap rt) (hfcs : fcs.length = 4)
    (hlen : (rt ++ (ieee ++ msg ++ fcs)).length ≤ 4096) :
    payload (rt ++ (ieee ++ msg ++ fcs)) (rt ++ (ieee ++ msg ++ fcs)).length
      (rt.length + ieee.length) = .ok (some msg) := by
  have htotal : (rt ++ (ieee ++ msg ++ fcs)).length =
      rt.length + ieee.length + msg.length + 4 := by
    simp only [List.length_append, hfcs]
    omega
  rw [htotal] at hlen ⊢
  have hpacket : (rt.length + ieee.length + msg.length + 4 + 4294967296 -
      (rt.length + ieee.length + 4)) % 4294967296 = msg.length := by
    have hsub : rt.length + ieee.length + msg.length + 4 + 4294967296 -
        (rt.length + ieee.length + 4) = msg.length + 4294967296 := by omega
    rw [hsub, Nat.add_mod_right, Nat.mod_eq_of_lt (by omega)]
  have hdata : ((rt ++ (ieee ++ msg ++ fcs)).drop (rt.length + ieee.length)).take msg.length =
      msg := by
    rw [List.append_assoc ieee, ← List.append_assoc, ← List.length_append, List.drop_left,
      List.take_left]
  rw [payload, if_neg (by omega), hrt.init (by omega) (by omega), ok_bind, if_pos rfl]
  simp only [hpacket, hdata, htotal]
  rw [if_neg (by omega)]

/-- A byte of the 802.11 header in the captured frame. -/
theorem readAt_ieee {i : ℕ} {b : UInt8} (hb : ieee[i]? = some b) :
    readAt .bytes (rt ++ (ieee ++ msg ++ fcs)) (rt.length + i) = (.ok b : Except Fault UInt8) := by
  have hi := (List.getElem?_eq_some_iff.mp hb).1
  rw [readAt_append_right, List.append_assoc, readAt_append_left _ _ hi]
  exact readAt_eq_ok.mpr hb

/-- A frame with a well-formed radiotap header and an FCS is taken apart again. -/
theorem receiveFrame_eq (curTime : ℕ) (hrt : WellFormedRadiotap rt) (hfcs : fcs.length = 4)
    {b₁ b₄ : UInt8} {n : ℕ} {linkType : LinkType} {latencyMs : Option ℕ} (h₁ : ieee[1]? = some b₁)
    (h₄ : ieee[4]? = some b₄) (hkind : frameKind b₁ = some (n, linkType)) (hn : ieee.length = n)
    (hlat : latency curTime (rt ++ (ieee ++ msg ++ fcs)) rt.length n = .ok latencyMs)
    (hlen : (rt ++ (ieee ++ msg ++ fcs)).length ≤ 4096) :
    receiveFrame curTime (rt ++ (ieee ++ msg ++ fcs)) (rt ++ (ieee ++ msg ++ fcs)).length =
      .ok (some { data := msg, port := (b₄ >>> 4).toNat, linkType, latencyMs }) := by
  subst hn
  have h8 := hrt.length_ge
  rw [receiveFrame, readLe16_append (by omega), hrt.length, ok_bind, readAt_ieee h₁, ok_bind, hkind]
  simp only [readAt_ieee h₄, ok_bind, hlat, payload_eq hrt hfcs hlen]
  rfl

theorem captureFilter_append {rest : List UInt8} (hrt : WellFormedRadiotap rt) (ground : Bool) :
    captureFilter ground (rt ++ rest) = acceptsIeee ground rest := by
  have h8 := hrt.length_ge
  rw [captureFilter, rtLength, readLe16_append (by omega), hrt.length]
  exact congrArg (acceptsIeee ground) List.drop_left

/-- The filter looks at the frame control field and the low nibble of the port byte only. -/
theorem acceptsIeee_ieeeHeader (ground : Bool) (now b : UInt8) (type : LinkType)
    (rest : List UInt8) :
    acceptsIeee ground ((RawSendSocket.ieeeHeader now type).set 4 b ++ rest) =
      decide (b.toNat &&& 0x0f = if ground then 0x05 else 0x0d) := by
  cases type <;>
    simp [acceptsIeee, ether, RawSendSocket.ieeeHeader, RawSendSocket.ieeeHeaderData,
      RawSendSocket.ieeeHeaderDataShort, RawSendSocket.ieeeHeaderRts]

/-- The link type a frame is received with.  The receiver looks at the second byte
of the header only. -/
def receivedAs : LinkType → LinkType
  | .shortDataLink | .rtsDataLink => .shortDataLink
  | .dataLink | .fecLink | .wfbLink => .dataLink

/-- The latency that is found at `curTime` for a frame with the time `now`. -/
def measuredMs (curTime : ℕ) (now : UInt8) : LinkType → Option ℕ
  | .shortDataLink | .rtsDataLink => none
  | .dataLink | .fecLink | .wfbLink =>
      some (if now.toNat < curTime then curTime - now.toNat else curTime + 256 - now.toNat)

/-- What becomes of a frame that was sent. -/
theorem receive_sent (ground : Bool) (now : UInt8) (type : LinkType) (port : UInt8) (curTime : ℕ)
    (hrt : WellFormedRadiotap rt) (hfcs : fcs.length = 4) {air : List UInt8}
    (hair : air = rt ++ ((RawSendSocket.ieeeHeader now type).set 4
      (RawSendSocket.portByte ground port) ++ msg ++ fcs)) (hlen : air.length ≤ 4096) :
    receive curTime (.frame air air.length) = .ok (some
      { data := msg
        port := (RawSendSocket.portByte ground port >>> 4).toNat
        linkType := receivedAs type
        latencyMs := measuredMs curTime now type }) := by
  subst hair
  set ieee :=
    (RawSendSocket.ieeeHeader now type).set 4 (RawSendSocket.portByte ground port) with hieee
  have htime (h : ieee[5]? = some now) :
      latency curTime (rt ++ (ieee ++ msg ++ fcs)) rt.length 0x18 =
        .ok (measuredMs curTime now .dataLink) := by
    rw [latency, if_pos (by decide), readAt_ieee h]
    rfl
  cases type with
  | shortDataLink => exact receiveFrame_eq curTime hrt hfcs rfl rfl rfl rfl rfl hlen
  | rtsDataLink => exact receiveFrame_eq curTime hrt hfcs rfl rfl rfl rfl rfl hlen
  | dataLink => exact receiveFrame_eq curTime hrt hfcs rfl rfl rfl rfl (htime rfl) hlen
  | fecLink => exact receiveFrame_eq curTime hrt hfcs rfl rfl rfl rfl (htime rfl) hlen
  | wfbLink => exact receiveFrame_eq curTime hrt hfcs rfl rfl rfl rfl (htime rfl) hlen

/-- What is in the air passes the filter of the other side and not the own one, and the other side
gets the message and its port. -/
theorem receive_frame (ground : Bool) (now : UInt8) (type : LinkType) {port : UInt8} (curTime : ℕ)
    (hport : port.toNat < 16) (hrt : WellFormedRadiotap rt) (hfcs : fcs.length = 4)
    {air : List UInt8}
    (hair : air = rt ++ ((RawSendSocket.ieeeHeader now type).set 4
      (RawSendSocket.portByte ground port) ++ msg ++ fcs)) (hlen : air.length ≤ 4096) :
    captureFilter (!ground) air = true ∧ captureFilter ground air = false ∧
      ∃ m, receive curTime (.frame air air.length) = .ok (some m) ∧ m.data = msg ∧
        m.port = port.toNat := by
  obtain ⟨hlow, hhigh⟩ := RawSendSocket.portByte_nibbles ground hport
  have hreceive := receive_sent ground now type port curTime hrt hfcs hair hlen
  refine ⟨?_, ?_, _, hreceive, rfl, hhigh⟩
  · rw [hair, captureFilter_append hrt, List.append_assoc, acceptsIeee_ieeeHeader, hlow]
    cases ground <;> rfl
  · rw [hair, captureFilter_append hrt, List.append_assoc, acceptsIeee_ieeeHeader, hlow]
    cases ground <;> rfl

/-- A frame of one side passes the filter of the other side and not its own, and the other side gets
the message and its port back. -/
theorem frame_round_trip (s : RawSendSocket) (pad2 now datarate : UInt8) (type : LinkType)
    (msg : List UInt8) (port : UInt8) (curTime : ℕ) (rt fcs : List UInt8) (hport : port.toNat < 16)
    (hfit : msg.length + (RawSendSocket.ieeeHeader now type).length ≤ s.mtu)
    (hrt : WellFormedRadiotap rt) (hfcs : fcs.length = 4)
    (hsnap : rt.length + (RawSendSocket.ieeeHeader now type).length + msg.length + 4 ≤ 4096) :
    ∃ frame air, s.send pad2 now msg port type datarate = .ok (some frame) ∧
      air = rt ++ frame.drop (s.radiotapHeader pad2 datarate).length ++ fcs ∧
      captureFilter (!s.ground) air = true ∧ captureFilter s.ground air = false ∧
      ∃ m, receive curTime (.frame air air.length) = .ok (some m) ∧ m.data = msg ∧
        m.port = port.toNat := by
  refine ⟨_, _, RawSendSocket.send_eq hfit, rfl, ?_⟩
  refine receive_frame s.ground now type curTime hport hrt hfcs ?_ ?_
  · rw [List.append_assoc (s.radiotapHeader pad2 datarate), List.drop_left, List.append_assoc rt]
  · rw [List.append_assoc (s.radiotapHeader pad2 datarate), List.drop_left]
    simp only [List.length_append, List.length_set, hfcs]
    omega

/-- Three bytes on port 5, from the ground, with a bare radiotap header at the receiver. -/
theorem frame_round_trip_short :
    ∃ frame air,
      ({ ground := true, mtu := 1500 } : RawSendSocket).send 0 0 [1, 2, 3] 5 .shortDataLink 2 =
        .ok (some frame) ∧
      air = [0, 0, 8, 0, 0, 0, 0, 0] ++ frame.drop 12 ++ [9, 9, 9, 9] ∧
      captureFilter false air = true ∧ captureFilter true air = false ∧
      ∃ m, receive 7 (.frame air air.length) = .ok (some m) ∧ m.data = [1, 2, 3] ∧ m.port = 5 := by
  have hrt : WellFormedRadiotap [0, 0, 8, 0, 0, 0, 0, 0] :=
    ⟨rfl, rfl, 0, by decide, by simp, 0, rfl, rfl⟩
  exact frame_round_trip { ground := true, mtu := 1500 } 0 0 2 .shortDataLink [1, 2, 3] 5 7 _
    [9, 9, 9, 9] (by decide) (by decide) hrt rfl (by decide)

end RoundTrip

end RawReceiveSocket

end WfbBridge
