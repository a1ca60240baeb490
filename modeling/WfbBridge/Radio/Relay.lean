import Mathlib
import WfbBridge.Radio.Receive
import WfbBridge.Radio.Rssi

/-!
# Relayed frames

`raw_relay_thread` (`raw_send_thread.cc`) hands what was received to `RawSendSocket::send` again,
with the port, the link type and the rate of the message.

The link type of a message has less in it than the one that was sent, and its rate is that of the
radiotap header, in units of 500 kbit/s, where `send` takes an index.
-/

namespace WfbBridge

open RawSendSocket RawReceiveSocket

/-- A turn of `raw_relay_thread`: what is sent for a message, if anything.  `rate` is its rate. -/
def rawRelay (sock : RawSendSocket) (pad2 now : UInt8) (m : MonitorMessage) (rate : UInt8) :
    Except Fault (Option (List UInt8)) :=
  if 0 < m.data.length then sock.send pad2 now m.data (UInt8.ofNat m.port) m.linkType rate
  else .ok none

/-- Two 802.11 headers are the same but for the direction and the time. -/
structure SameHeader (ieee ieee' : List UInt8) : Prop where
  length : ieee'.length = ieee.length
  bytes : ∀ i, i ≠ 4 → i ≠ 5 → ieee'[i]? = ieee[i]?
  port : ieee'[4]?.map (fun b : UInt8 ↦ b >>> 4) = ieee[4]?.map fun b : UInt8 ↦ b >>> 4

/-- A frame with a legacy radiotap header is repeated: the 802.11 header of `n` bytes,
the payload, and the rate. -/
structure Repeats (n : ℕ) (frame frame' : List UInt8) : Prop where
  header : SameHeader ((frame.drop 12).take n) ((frame'.drop 12).take n)
  payload : frame'.drop (12 + n) = frame.drop (12 + n)
  rate : frame'[8]? = frame[8]?

/-- The `RATE` fields of a radiotap header. -/
def rates (args : List RadiotapArg) : List UInt8 :=
  args.filterMap fun
    | .rate b => some b
    | _ => none

/-- A message is repeated: a message with data is sent, and what is sent repeats the frame. -/
structure RelayRepeats (sock : RawSendSocket) (pad2 now : UInt8) (m : MonitorMessage) (rate : UInt8)
    (n : ℕ) (frame : List UInt8) : Prop where
  sent : m.data ≠ [] → ∃ frame', rawRelay sock pad2 now m rate = .ok (some frame')
  repeats : ∀ frame', rawRelay sock pad2 now m rate = .ok (some frame') → Repeats n frame frame'

/-! ## When frames are repeated -/

/-- The loop over the fields keeps the last rate. -/
theorem readArg_rate (args : List RadiotapArg) (msg : RadiotapInfo) (antenna : UInt8) :
    (args.foldl RadiotapInfo.readArg (msg, antenna)).1.rate =
      (rates args).getLast?.getD msg.rate := by
  induction args generalizing msg antenna with
  | nil => rfl
  | cons arg args ih =>
      rw [List.foldl_cons]
      cases arg with
      | rate b =>
          rw [show rates (.rate b :: args) = b :: rates args from rfl, List.getLast?_cons]
          exact ih { msg with rate := b } antenna
      | channel freq flags => exact ih { msg with channel := freq, channelFlag := flags } antenna
      | antenna b => exact ih msg b
      | flags b => exact ih { msg with radiotapFlags := b } antenna
      | dbmAntsignal b => exact ih (msg.setRssi antenna (signedByte b)) antenna
      | lockQuality q => exact ih { msg with lockQuality := q } antenna
      | other => exact ih msg antenna

theorem readArgs_rate {args : List RadiotapArg} {b : UInt8} (msg : RadiotapInfo)
    (hne : rates args ≠ []) (hrate : ∀ b' ∈ rates args, b' = b) : (msg.readArgs args).rate = b := by
  refine (readArg_rate args { msg with rssis := [] } 0).trans ?_
  rw [List.getLast?_eq_some_getLast hne]
  exact hrate _ (List.getLast_mem hne)

theorem length_ieeeHeader_receivedAs (now now' : UInt8) (type : LinkType) :
    (ieeeHeader now' (receivedAs type)).length = (ieeeHeader now type).length := by
  cases type <;> rfl

/-- The time is in one byte of the header. -/
theorem getElem?_ieeeHeader (now now' : UInt8) (type : LinkType) {i : ℕ} (hi : i ≠ 5) :
    (ieeeHeader now' type)[i]? = (ieeeHeader now type)[i]? := by
  cases type with
  | shortDataLink => rfl
  | rtsDataLink => rfl
  | dataLink => exact (List.getElem?_set_ne hi.symm).trans (List.getElem?_set_ne hi.symm).symm
  | fecLink => exact (List.getElem?_set_ne hi.symm).trans (List.getElem?_set_ne hi.symm).symm
  | wfbLink => exact (List.getElem?_set_ne hi.symm).trans (List.getElem?_set_ne hi.symm).symm

/-- The header of one link type, sent twice on one port. -/
theorem sameHeader_ieeeHeader (now now' : UInt8) (type : LinkType) (ground ground' : Bool)
    {port : UInt8} (hport : port.toNat < 16) :
    SameHeader ((ieeeHeader now type).set 4 (portByte ground port))
      ((ieeeHeader now' type).set 4 (portByte ground' port)) := by
  have hlength : (ieeeHeader now' type).length = (ieeeHeader now type).length := by
    cases type <;> rfl
  have hfour : 4 < (ieeeHeader now type).length := by
    rcases length_ieeeHeader now type with h | h <;> omega
  refine ⟨?_, fun i h4 h5 ↦ ?_, ?_⟩
  · rw [List.length_set, List.length_set, hlength]
  · rw [List.getElem?_set_ne h4.symm, List.getElem?_set_ne h4.symm,
      getElem?_ieeeHeader now now' type h5]
  · rw [List.getElem?_set_self (hlength ▸ hfour), List.getElem?_set_self hfour]
    refine congrArg some (UInt8.toNat_inj.mp ?_)
    exact (portByte_nibbles ground' hport).2.trans (portByte_nibbles ground hport).2.symm

/-- An RTS frame is sent on as a short data frame. -/
theorem not_sameHeader_rts (now now' b b' : UInt8) :
    ¬SameHeader ((ieeeHeader now .rtsDataLink).set 4 b)
      ((ieeeHeader now' .shortDataLink).set 4 b') := by
  intro h
  have hcontrol : some (0x08 : UInt8) = some 0xb4 := h.bytes 0 (by decide) (by decide)
  exact absurd hcontrol (by decide)

/-- Of the six rates, only the second is also the one for an index that `send` does not know. -/
theorem legacyRate_legacyRate {datarate : UInt8} (h : datarate.toNat ≤ 5) :
    legacyRate (legacyRate datarate) = legacyRate datarate ↔ datarate = 1 := by
  have hall : ∀ n ≤ 5, legacyRate (legacyRate (UInt8.ofNat n)) = legacyRate (UInt8.ofNat n) ↔
      UInt8.ofNat n = 1 := by decide
  simpa only [UInt8.ofNat_toNat] using hall datarate.toNat h

/-- The parts of a frame with a legacy radiotap header. -/
theorem frame_parts (pad2 datarate : UInt8) {ieee : List UInt8} (msg : List UInt8) {n : ℕ}
    (hn : ieee.length = n) :
    ((radiotapHeaderLegacy pad2 datarate ++ (ieee ++ msg)).drop 12).take n = ieee ∧
      (radiotapHeaderLegacy pad2 datarate ++ (ieee ++ msg)).drop (12 + n) = msg ∧
      (radiotapHeaderLegacy pad2 datarate ++ (ieee ++ msg))[8]? = some (legacyRate datarate) := by
  have hlength : (radiotapHeaderLegacy pad2 datarate ++ ieee).length = 12 + n := by
    rw [List.length_append, hn]
    rfl
  refine ⟨?_, ?_, rfl⟩
  · have hdrop : (radiotapHeaderLegacy pad2 datarate ++ (ieee ++ msg)).drop 12 = ieee ++ msg :=
      List.drop_left' rfl
    rw [hdrop]
    exact List.take_left' hn
  · rw [← List.append_assoc]
    exact List.drop_left' hlength

theorem repeats_iff {pad2 pad2' datarate datarate' : UInt8} {ieee ieee' msg : List UInt8} {n : ℕ}
    (hn : ieee.length = n) (hn' : ieee'.length = n) :
    Repeats n (radiotapHeaderLegacy pad2 datarate ++ (ieee ++ msg))
        (radiotapHeaderLegacy pad2' datarate' ++ (ieee' ++ msg)) ↔
      SameHeader ieee ieee' ∧ legacyRate datarate' = legacyRate datarate := by
  obtain ⟨hieee, hmsg, hrate⟩ := frame_parts pad2 datarate msg hn
  obtain ⟨hieee', hmsg', hrate'⟩ := frame_parts pad2' datarate' msg hn'
  constructor
  · rintro ⟨hheader, -, hsame⟩
    rw [hieee, hieee'] at hheader
    rw [hrate, hrate'] at hsame
    exact ⟨hheader, Option.some.inj hsame⟩
  · rintro ⟨hheader, hsame⟩
    refine ⟨?_, hmsg'.trans hmsg.symm, ?_⟩
    · rwa [hieee, hieee']
    · rw [hrate, hrate', hsame]

/-- What is sent for a message with data, if it fits. -/
theorem rawRelay_eq {sock : RawSendSocket} {pad2 now rate : UInt8} {m : MonitorMessage}
    (hmcs : sock.mcs = false) (hdata : m.data ≠ [])
    (hfit : m.data.length + (ieeeHeader now m.linkType).length ≤ sock.mtu) :
    rawRelay sock pad2 now m rate = .ok (some (radiotapHeaderLegacy pad2 rate ++
      ((ieeeHeader now m.linkType).set 4 (portByte sock.ground (UInt8.ofNat m.port)) ++
        m.data))) := by
  rw [rawRelay, if_pos (List.length_pos_iff.mpr hdata), send_eq hfit, radiotapHeader, hmcs,
    List.append_assoc]
  rfl

theorem relayRepeats_of_sent {sock : RawSendSocket} {pad2 now rate : UInt8} {m : MonitorMessage}
    {n : ℕ} {frame frame' : List UInt8} (h : rawRelay sock pad2 now m rate = .ok (some frame')) :
    RelayRepeats sock pad2 now m rate n frame ↔ Repeats n frame frame' := by
  refine ⟨fun hrelay ↦ hrelay.repeats frame' h, fun hrepeats ↦ ⟨fun _ ↦ ⟨frame', h⟩, fun f hf ↦ ?_⟩⟩
  rwa [Option.some.inj (Except.ok.inj (hf.symm.trans h))]

/-- A frame is repeated exactly when there is nothing to repeat in it, or it is not an RTS frame and
was sent at the rate with index 1. -/
theorem relayRepeats_iff (sock sock' : RawSendSocket) (pad2 pad2' now now' datarate port : UInt8)
    (type : LinkType) (msg rt fcs frame air : List UInt8) (args : List RadiotapArg)
    (info : RadiotapInfo) (curTime : ℕ) (m : MonitorMessage) (hmcs : sock.mcs = false)
    (hmcs' : sock'.mcs = false) (hmtu : sock'.mtu = sock.mtu) (hport : port.toNat < 16)
    (htype : type = .dataLink ∨ type = .shortDataLink ∨ type = .rtsDataLink)
    (hdatarate : datarate.toNat ≤ 5)
    (hsend : sock.send pad2 now msg port type datarate = .ok (some frame))
    (hrt : WellFormedRadiotap rt) (hfcs : fcs.length = 4) (hair : air = rt ++ frame.drop 12 ++ fcs)
    (hlen : air.length ≤ 4096)
    (hrates : rates args ≠ [] ∧ ∀ b ∈ rates args, b = legacyRate datarate)
    (hm : receive curTime (.frame air air.length) = .ok (some m)) :
    RelayRepeats sock' pad2' now' m (info.readArgs args).rate (ieeeHeader now type).length frame ↔
      msg = [] ∨ type ≠ .rtsDataLink ∧ datarate = 1 := by
  have hfit := le_mtu_of_send hsend
  have hframe : frame = radiotapHeaderLegacy pad2 datarate ++
      ((ieeeHeader now type).set 4 (portByte sock.ground port) ++ msg) := by
    rw [send_eq_some hsend, radiotapHeader, hmcs]
    rfl
  have hdrop : frame.drop 12 = (ieeeHeader now type).set 4 (portByte sock.ground port) ++ msg := by
    rw [hframe]
    exact List.drop_left' rfl
  rw [hdrop, List.append_assoc] at hair
  have hmessage := Option.some.inj (Except.ok.inj (hm.symm.trans
    (receive_sent sock.ground now type port curTime hrt hfcs hair hlen)))
  have hdata : m.data = msg := by rw [hmessage]
  have hlink : m.linkType = receivedAs type := by rw [hmessage]
  have hsamePort : UInt8.ofNat m.port = port := by
    rw [hmessage, (portByte_nibbles sock.ground hport).2, UInt8.ofNat_toNat]
  rw [readArgs_rate info hrates.1 hrates.2]
  by_cases hmsg : msg = []
  · refine iff_of_true ⟨fun h ↦ absurd (hdata.trans hmsg) h, fun frame' h ↦ ?_⟩ (.inl hmsg)
    rw [rawRelay, hdata, hmsg] at h
    cases h
  · have hlength := length_ieeeHeader_receivedAs now now' type
    have hrelay : rawRelay sock' pad2' now' m (legacyRate datarate) = _ :=
      rawRelay_eq hmcs' (hdata ▸ hmsg) (by rwa [hdata, hlink, hlength, hmtu])
    rw [hdata, hlink, hsamePort] at hrelay
    rw [relayRepeats_of_sent hrelay, hframe,
      repeats_iff List.length_set (List.length_set.trans hlength),
      legacyRate_legacyRate hdatarate, or_iff_right hmsg]
    refine and_congr_left' ?_
    rcases htype with rfl | rfl | rfl
    · exact iff_of_true (sameHeader_ieeeHeader now now' .dataLink _ _ hport) (by decide)
    · exact iff_of_true (sameHeader_ieeeHeader now now' .shortDataLink _ _ hport) (by decide)
    · exact iff_of_false (not_sameHeader_rts now now' _ _) (by simp)

/-- Two bytes on port 3 at 11 Mbit/s. -/
theorem relayRepeats_eleven_mbps :
    ∃ frame m, ({ ground := false, mtu := 1500 } : RawSendSocket).send 0 7 [1, 2] 3 .dataLink 1 =
      .ok (some frame) ∧
      receive 9 (.frame ([0, 0, 9, 0, 4, 0, 0, 0, 22] ++ frame.drop 12 ++ [9, 9, 9, 9]) 39) =
        .ok (some m) ∧
      RelayRepeats { ground := true, mtu := 1500 } 0 10 m
        (({} : RadiotapInfo).readArgs [.rate 22]).rate 24 frame := by
  have hrates : rates [.rate 22] ≠ [] ∧ ∀ b ∈ rates [.rate 22], b = legacyRate 1 :=
    ⟨List.cons_ne_nil _ _, fun b hb ↦ List.mem_singleton.mp hb⟩
  refine ⟨_, _, rfl, rfl, ?_⟩
  exact (relayRepeats_iff { ground := false, mtu := 1500 } { ground := true, mtu := 1500 } 0 0 7 10
    1 3 .dataLink [1, 2] [0, 0, 9, 0, 4, 0, 0, 0, 22] [9, 9, 9, 9] _ _ [.rate 22] {} 9 _
    rfl rfl rfl (by decide) (.inl rfl) (by decide) rfl (by decide) rfl rfl (by decide) hrates
    rfl).mpr (.inr ⟨by decide, rfl⟩)

/-- The same at 24 Mbit/s: it is sent on at 11 Mbit/s. -/
theorem not_relayRepeats_24_mbps :
    ∃ frame m, ({ ground := false, mtu := 1500 } : RawSendSocket).send 0 7 [1, 2] 3 .dataLink 3 =
      .ok (some frame) ∧
      receive 9 (.frame ([0, 0, 9, 0, 4, 0, 0, 0, 48] ++ frame.drop 12 ++ [9, 9, 9, 9]) 39) =
        .ok (some m) ∧
      ¬RelayRepeats { ground := true, mtu := 1500 } 0 10 m
        (({} : RadiotapInfo).readArgs [.rate 48]).rate 24 frame := by
  refine ⟨_, _, rfl, rfl, fun h ↦ ?_⟩
  have hrelay := h.repeats _ (rawRelay_eq rfl (List.cons_ne_nil _ _) (by decide))
  have hrate : some (22 : UInt8) = some 48 := hrelay.rate
  exact absurd hrate (by decide)

end WfbBridge
