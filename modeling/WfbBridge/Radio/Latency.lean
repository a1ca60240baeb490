import Mathlib
import WfbBridge.Radio.Radiotap

/-!
# Latency

A data frame carries the time at which it was sent, and `receive` compares it with its own
(`raw_socket.cc`); `fec_decode_thread` passes the difference to `add_latency`, as a byte, if the
message has data and a signal.

The time is the millisecond of the current second, from 0 to 1000, and its low byte is what is sent.
The difference of two bytes is right modulo 256, but a new second takes off 1000 milliseconds, and
1000 is not a multiple of 256.
-/

namespace WfbBridge

open Checked

/-- `cur_microseconds`, `t` microseconds after some second. -/
def curMicroseconds (t : ℕ) : ℕ := t % 1000000

/-- `cur_milliseconds`: rounded, and up in the middle. -/
def curMilliseconds (t : ℕ) : ℕ := (curMicroseconds t + 500) / 1000

/-- The time stamp of a data frame. -/
def sendTime (t : ℕ) : UInt8 := UInt8.ofNat (curMilliseconds t % 256)

/-- `receive` on a captured frame, with the fields of the message
that come from the radiotap header. -/
def RawReceiveSocket.receiveMessage (curTime : ℕ) (cap : List UInt8) (len : ℕ) :
    Except RadiotapFault (Option (MonitorMessage × RadiotapInfo)) := do
  match ← (receiveFrame curTime cap len).mapError .access with
  | none => .ok none
  | some m =>
      match ← (RadiotapIterator.init cap len).mapError .access with
      | none => .ok none
      | some it => do
          let info ← ({} : RadiotapInfo).readHeader cap it
          .ok (some (m, info))

/-- What `fec_decode_thread` passes to `add_latency`, which takes a `uint8_t`: only messages with
data and a signal are looked at. -/
def MonitorMessage.latencyArg (m : MonitorMessage) (rssi : ℤ) : Option ℕ :=
  if 0 < m.data.length ∧ -100 < rssi then m.latencyMs.map u8 else none

/-- The latency that is passed on, for a frame that was sent at `s` and is received at `r`, is right
up to a millisecond. -/
def MeasuresLatency (s r : ℕ) (air : List UInt8) : Prop :=
  ∀ m info ms,
    RawReceiveSocket.receiveMessage (curMilliseconds r) air air.length = .ok (some (m, info)) →
    m.latencyArg info.rssi = some ms → |(ms : ℚ) - ((r : ℚ) - s) / 1000| ≤ 1

/-- The radiotap header of a captured frame reports a signal. -/
def HasSignal (cap : List UInt8) : Prop :=
  ∃ it info, RadiotapIterator.init cap cap.length = .ok (some it) ∧
    ({} : RadiotapInfo).readHeader cap it = .ok info ∧ -100 < info.rssi

theorem curMilliseconds_le (t : ℕ) : curMilliseconds t ≤ 1000 := by
  rw [curMilliseconds, curMicroseconds]
  omega

theorem toNat_sendTime (t : ℕ) : (sendTime t).toNat = curMilliseconds t % 256 :=
  UInt8.toNat_ofNat_of_lt' (Nat.mod_lt _ (by decide))

/-- The byte that is passed on is the difference of the two times. -/
theorem latencyArg_measuredMs (s r : ℕ) :
    (RawReceiveSocket.measuredMs (curMilliseconds r) (sendTime s) .dataLink).map u8 =
      some ((curMilliseconds r + 1024 - curMilliseconds s) % 256) := by
  have hs := curMilliseconds_le s
  rw [RawReceiveSocket.measuredMs, toNat_sendTime, Option.map_some, u8]
  congr 1
  split <;> omega

/-- The comparison in microseconds. -/
theorem abs_sub_div_le_one_iff (ms s r : ℕ) :
    |(ms : ℚ) - ((r : ℚ) - s) / 1000| ≤ 1 ↔ r ≤ s + 1000 * ms + 1000 ∧
      s + 1000 * ms ≤ r + 1000 := by
  rw [abs_le]
  constructor
  · rintro ⟨hlow, hhigh⟩
    have hr : (r : ℚ) ≤ s + 1000 * ms + 1000 := by linarith
    have hs : (s : ℚ) + 1000 * ms ≤ r + 1000 := by linarith
    exact ⟨by exact_mod_cast hr, by exact_mod_cast hs⟩
  · rintro ⟨hr, hs⟩
    have hr' : (r : ℚ) ≤ s + 1000 * ms + 1000 := by exact_mod_cast hr
    have hs' : (s : ℚ) + 1000 * ms ≤ r + 1000 := by exact_mod_cast hs
    exact ⟨by linarith, by linarith⟩

/-- The difference, taken modulo 256, is the latency within one second, and is off by 24 or 232 from
one second to the next. -/
theorem latency_iff {s r : ℕ} (hsr : s ≤ r) (hms : r ≤ s + 250000) :
    |(((curMilliseconds r + 1024 - curMilliseconds s) % 256 : ℕ) : ℚ) - ((r : ℚ) - s) / 1000| ≤ 1 ↔
      s / 1000000 = r / 1000000 := by
  rw [abs_sub_div_le_one_iff, curMilliseconds, curMicroseconds, curMilliseconds, curMicroseconds]
  constructor
  · rintro ⟨hlow, hhigh⟩
    by_contra hne
    have hnext : r / 1000000 = s / 1000000 + 1 := by omega
    omega
  · intro hsame
    omega

/-- What becomes of a frame, with its radiotap header. -/
theorem receiveMessage_eq_some_iff {curTime len : ℕ} {cap : List UInt8} {m : MonitorMessage}
    (hreceive : RawReceiveSocket.receive curTime (.frame cap len) = .ok (some m))
    {m' : MonitorMessage} {info : RadiotapInfo} :
    RawReceiveSocket.receiveMessage curTime cap len = .ok (some (m', info)) ↔
      m = m' ∧ ∃ it, RadiotapIterator.init cap len = .ok (some it) ∧
        ({} : RadiotapInfo).readHeader cap it = .ok info := by
  rw [RawReceiveSocket.receive] at hreceive
  rw [RawReceiveSocket.receiveMessage, hreceive]
  simp only [RadiotapIterator.mapError_ok, ok_bind]
  cases hinit : RadiotapIterator.init cap len with
  | error e => simp [Except.mapError]
  | ok it? =>
      cases it? with
      | none => simp [RadiotapIterator.mapError_ok]
      | some it =>
          simp only [RadiotapIterator.mapError_ok, ok_bind]
          cases hread : ({} : RadiotapInfo).readHeader cap it <;> simp [hread]

/-- The latency of a frame is right exactly when it is received in the second
in which it was sent, or not passed on. -/
theorem measuresLatency_iff (sock : RawSendSocket) (pad2 datarate port : UInt8)
    (msg rt fcs : List UInt8) (s r : ℕ) (frame air : List UInt8) (hsr : s ≤ r)
    (hms : r ≤ s + 250000)
    (hsend : sock.send pad2 (sendTime s) msg port .dataLink datarate = .ok (some frame))
    (hrt : WellFormedRadiotap rt) (hfcs : fcs.length = 4)
    (hair : air = rt ++ frame.drop (sock.radiotapHeader pad2 datarate).length ++ fcs)
    (hlen : air.length ≤ 4096) :
    MeasuresLatency s r air ↔ (msg ≠ [] ∧ HasSignal air → s / 1000000 = r / 1000000) := by
  rw [RawSendSocket.send_eq_some hsend, List.drop_left, List.append_assoc] at hair
  have hreceive :=
    RawReceiveSocket.receive_sent sock.ground (sendTime s) .dataLink port (curMilliseconds r)
      hrt hfcs hair hlen
  rw [← latency_iff hsr hms]
  constructor
  · rintro h ⟨hmsg, it, info, hinit, hread, hrssi⟩
    refine h _ info _ ((receiveMessage_eq_some_iff hreceive).mpr ⟨rfl, it, hinit, hread⟩) ?_
    rw [MonitorMessage.latencyArg, if_pos ⟨List.length_pos_iff.mpr hmsg, hrssi⟩]
    exact latencyArg_measuredMs s r
  · intro h m info ms hm hms'
    obtain ⟨rfl, it, hinit, hread⟩ := (receiveMessage_eq_some_iff hreceive).mp hm
    rw [MonitorMessage.latencyArg] at hms'
    split at hms'
    case isFalse => cases hms'
    case isTrue hpassed =>
      rw [latencyArg_measuredMs] at hms'
      rw [← Option.some.inj hms']
      exact h ⟨List.length_pos_iff.mp hpassed.1, it, info, hinit, hread, hpassed.2⟩

/-- A byte on port 0, from the air, received at -40 dBm three milliseconds later: 3 is passed on. -/
theorem measuresLatency_three_ms :
    ∃ frame, ({ ground := false, mtu := 1500 } : RawSendSocket).send 0 (sendTime 255400) [42] 0
        .dataLink 2 = .ok (some frame) ∧
      MeasuresLatency 255400 258400
        ([0, 0, 9, 0, 0x20, 0, 0, 0, 0xd8] ++ frame.drop 12 ++ [9, 9, 9, 9]) ∧
      ∃ m info, RawReceiveSocket.receiveMessage (curMilliseconds 258400)
          ([0, 0, 9, 0, 0x20, 0, 0, 0, 0xd8] ++ frame.drop 12 ++ [9, 9, 9, 9]) 38 =
            .ok (some (m, info)) ∧
        m.latencyArg info.rssi = some 3 := by
  have hrt : WellFormedRadiotap [0, 0, 9, 0, 0x20, 0, 0, 0, 0xd8] := by decide
  refine ⟨_, rfl, ?_, _, _, rfl, rfl⟩
  exact (measuresLatency_iff { ground := false, mtu := 1500 } 0 2 0 [42] _ [9, 9, 9, 9]
    255400 258400 _ _ (by decide) (by decide) rfl hrt rfl rfl (by decide)).mpr fun _ ↦ by decide

/-- The byte is sent in the last millisecond of a second,
and received two milliseconds later: 26 is passed on. -/
theorem not_measuresLatency_next_second :
    ∃ frame, ({ ground := false, mtu := 1500 } : RawSendSocket).send 0 (sendTime 999000) [42] 0
        .dataLink 2 = .ok (some frame) ∧
      ¬MeasuresLatency 999000 1001000
        ([0, 0, 9, 0, 0x20, 0, 0, 0, 0xd8] ++ frame.drop 12 ++ [9, 9, 9, 9]) := by
  refine ⟨_, rfl, fun h ↦ ?_⟩
  have hwrong := h { data := [42], port := 0, linkType := .dataLink, latencyMs := some 26 }
    { rssi := -40, rssis := [-40] } 26 rfl rfl
  norm_num at hwrong

end WfbBridge
