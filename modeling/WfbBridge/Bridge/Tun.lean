import Mathlib
import WfbBridge.Bridge.Threads

/-!
# The TUN device

`TUNInterface::read` and a turn of `tun_raw_thread`, with every way in which `select` and `::read`
can end.  What the source leaves uninitialized is an argument here: `ip_port`, which the thread
hands to `read`, and `protocol`, which a short packet does not set.

`Ipv4` says where an IPv4 packet has its destination port; `read` looks at fixed places.
-/

namespace WfbBridge

/-- Two bytes in network order. -/
def word16 (pkt : List UInt8) (i : ℕ) : ℕ :=
  (pkt.getD i 0).toNat <<< 8 ||| (pkt.getD (i + 1) 0).toNat

/-- `PROTOCOL_UDP`. -/
def protocolUdp : UInt8 := 0x11

/-- `PROTOCOL_TCP`. -/
def protocolTcp : UInt8 := 0x06

/-- The buffer that `tun_raw_thread` reads into. -/
def tunBuffer : List UInt8 := List.replicate 2048 0

theorem length_tunBuffer : tunBuffer.length = 2048 := List.length_replicate

theorem tunBuffer_ne : tunBuffer ≠ [] :=
  List.ne_nil_of_length_pos (length_tunBuffer ▸ by decide)

/-! ## The port of a packet -/

namespace Ipv4

/-- The version of the protocol. -/
def version (pkt : List UInt8) : ℕ := (pkt.getD 0 0).toNat / 16

/-- The length of the header, in words of four bytes. -/
def ihl (pkt : List UInt8) : ℕ := (pkt.getD 0 0).toNat % 16

/-- The place of a fragment in its packet. -/
def fragmentOffset (pkt : List UInt8) : ℕ := word16 pkt 6 % 8192

/-- What the packet carries. -/
def protocol (pkt : List UInt8) : UInt8 := pkt.getD 9 0

/-- An IPv4 packet with UDP or TCP, or the first fragment of one, that is long enough to have its
destination port in it. -/
structure HoldsPort (pkt : List UInt8) : Prop where
  version : version pkt = 4
  ihl : 5 ≤ ihl pkt
  protocol : protocol pkt = protocolUdp ∨ protocol pkt = protocolTcp
  fragmentOffset : fragmentOffset pkt = 0
  length : 4 * Ipv4.ihl pkt + 3 < pkt.length

instance (pkt : List UInt8) : Decidable (HoldsPort pkt) :=
  decidable_of_iff (version pkt = 4 ∧ 5 ≤ ihl pkt ∧
      (protocol pkt = protocolUdp ∨ protocol pkt = protocolTcp) ∧ fragmentOffset pkt = 0 ∧
      4 * ihl pkt + 3 < pkt.length)
    ⟨fun ⟨h₁, h₂, h₃, h₄, h₅⟩ ↦ ⟨h₁, h₂, h₃, h₄, h₅⟩,
      fun ⟨h₁, h₂, h₃, h₄, h₅⟩ ↦ ⟨h₁, h₂, h₃, h₄, h₅⟩⟩

/-- The destination port, and 0 for everything else. -/
def destPort (pkt : List UInt8) : ℕ := if HoldsPort pkt then word16 pkt (4 * ihl pkt + 2) else 0

end Ipv4

/-- What `select` returned. -/
inductive Select where
  | error
  | timeout
  | ready
deriving DecidableEq

/-- What `::read` returned: an error, or a packet, of which it stores what the buffer holds. -/
inductive Reading where
  | error
  | packet (pkt : List UInt8)
deriving DecidableEq

namespace TUNInterface

/-- The port that `read` finds.  `protocol` starts uninitialized. -/
def parsePort (protocol : UInt8) (buf : List UInt8) : ℕ :=
  let protocol := if 9 < buf.length then buf.getD 9 0 else protocol
  if (protocol = protocolUdp ∨ protocol = protocolTcp) ∧ 23 < buf.length then word16 buf 22 else 0

/-- `read`: its result, the buffer and the port. -/
def readInto (timeoutUs : ℕ) (select : Select) (reading : Reading) (protocol : UInt8)
    (buf : List UInt8) (ipPort : ℕ) : Bool × List UInt8 × ℕ :=
  if buf = [] then (false, buf, ipPort)
  else if 0 < timeoutUs ∧ select = .error then (false, buf, ipPort)
  else if 0 < timeoutUs ∧ select = .timeout then (true, [], ipPort)
  else match reading with
    | .error => (false, [], ipPort)
    | .packet pkt => (true, pkt.take buf.length, parsePort protocol (pkt.take buf.length))

/-- The port does not depend on what was uninitialized. -/
theorem parsePort_eq (protocol : UInt8) (buf : List UInt8) :
    parsePort protocol buf = ipPort buf := by
  by_cases h9 : 9 < buf.length
  · rw [parsePort, if_pos h9]
    rfl
  · rw [parsePort, ipPort, if_neg fun h ↦ h9 (by omega), if_neg fun h ↦ h9 (by omega)]

/-- The packet has 24 bytes, and the protocol number of UDP or TCP
in the place where IPv4 has it. -/
def LooksLikePort (pkt : List UInt8) : Prop :=
  (pkt.getD 9 0 = protocolUdp ∨ pkt.getD 9 0 = protocolTcp) ∧ 23 < pkt.length

instance (pkt : List UInt8) : Decidable (LooksLikePort pkt) := inferInstanceAs (Decidable (_ ∧ _))

/-- The place that `read` looks at is the right one, or has the right bytes by chance. -/
def PortInPlace (pkt : List UInt8) : Prop :=
  LooksLikePort pkt →
    if Ipv4.HoldsPort pkt then Ipv4.ihl pkt = 5 ∨ word16 pkt 22 = word16 pkt (4 * Ipv4.ihl pkt + 2)
    else word16 pkt 22 = 0

instance (pkt : List UInt8) : Decidable (PortInPlace pkt) := inferInstanceAs (Decidable (_ → _))

theorem ipPort_of_looksLikePort {pkt : List UInt8} (h : LooksLikePort pkt) :
    ipPort pkt = word16 pkt 22 :=
  if_pos h

theorem looksLikePort_of_holdsPort {pkt : List UInt8} (h : Ipv4.HoldsPort pkt) :
    LooksLikePort pkt := by
  have hihl := h.ihl
  have hlen := h.length
  exact ⟨h.protocol, by omega⟩

/-- `ipPort` is the destination port where the header is where it is expected. -/
theorem ipPort_eq_destPort_iff (pkt : List UInt8) :
    ipPort pkt = Ipv4.destPort pkt ↔ PortInPlace pkt := by
  by_cases hlooks : LooksLikePort pkt
  · rw [ipPort_of_looksLikePort hlooks, Ipv4.destPort, PortInPlace, forall_prop_of_true hlooks]
    by_cases hport : Ipv4.HoldsPort pkt
    · rw [if_pos hport, if_pos hport]
      constructor
      · exact .inr
      · rintro (h5 | heq)
        · rw [h5]
        · exact heq
    · rw [if_neg hport, if_neg hport]
  · have hnone : ¬Ipv4.HoldsPort pkt := fun h ↦ hlooks (looksLikePort_of_holdsPort h)
    rw [Ipv4.destPort, if_neg hnone]
    exact ⟨fun _ h ↦ absurd h hlooks, fun _ ↦ if_neg hlooks⟩

/-- `::read` is called. -/
def Reads (timeoutUs : ℕ) (select : Select) : Prop := timeoutUs = 0 ∨ select = .ready

instance (timeoutUs : ℕ) (select : Select) : Decidable (Reads timeoutUs select) :=
  inferInstanceAs (Decidable (_ ∨ _))

section

variable {timeoutUs : ℕ} {select : Select} {buf : List UInt8}

/-- The buffer and the port are not touched. -/
theorem readInto_select_error (h : 0 < timeoutUs ∧ select = .error) (reading : Reading)
    (protocol : UInt8) (hbuf : buf ≠ []) (ipPort : ℕ) :
    readInto timeoutUs select reading protocol buf ipPort = (false, buf, ipPort) := by
  rw [readInto.eq_def, if_neg hbuf, if_pos h]

theorem readInto_timeout (h : 0 < timeoutUs ∧ select = .timeout) (reading : Reading)
    (protocol : UInt8) (hbuf : buf ≠ []) (ipPort : ℕ) :
    readInto timeoutUs select reading protocol buf ipPort = (true, [], ipPort) := by
  rw [readInto.eq_def, if_neg hbuf, if_neg fun herror ↦ ?_, if_pos h]
  exact Select.noConfusion (h.2.symm.trans herror.2)

theorem Reads.not_select (h : Reads timeoutUs select) {other : Select} (hne : other ≠ .ready) :
    ¬(0 < timeoutUs ∧ select = other) := by
  rintro ⟨hpos, rfl⟩
  rcases h with h0 | hready
  · exact hpos.ne' h0
  · exact hne hready

theorem readInto_error (h : Reads timeoutUs select) (protocol : UInt8) (hbuf : buf ≠ [])
    (ipPort : ℕ) :
    readInto timeoutUs select .error protocol buf ipPort = (false, [], ipPort) := by
  rw [readInto, if_neg hbuf, if_neg (h.not_select (by decide)), if_neg (h.not_select (by decide))]

theorem readInto_packet (h : Reads timeoutUs select) (pkt : List UInt8) (protocol : UInt8)
    (hbuf : buf ≠ []) (ipPort : ℕ) :
    readInto timeoutUs select (.packet pkt) protocol buf ipPort =
      (true, pkt.take buf.length, TUNInterface.ipPort (pkt.take buf.length)) := by
  rw [readInto, if_neg hbuf, if_neg (h.not_select (by decide)), if_neg (h.not_select (by decide)),
    parsePort_eq]

end

/-- Whenever the bytes `pkt` are read, `ip_port` is their destination port. -/
def SetsDestPort (pkt : List UInt8) : Prop :=
  ∀ timeoutUs select protocol buf ipPort, Reads timeoutUs select → buf ≠ [] →
    pkt.length ≤ buf.length →
      (readInto timeoutUs select (.packet pkt) protocol buf ipPort).2.2 = Ipv4.destPort pkt

/-- `read` finds the destination port of the packets that have it in its place. -/
theorem setsDestPort_iff (pkt : List UInt8) : SetsDestPort pkt ↔ PortInPlace pkt := by
  rw [← ipPort_eq_destPort_iff]
  constructor
  · intro h
    have hread := h 0 .ready 0 (List.replicate (pkt.length + 1) 0) 0 (.inl rfl) (by simp) (by simp)
    rwa [readInto_packet (.inl rfl) _ _ (by simp), List.length_replicate,
      List.take_of_length_le (Nat.le_succ _)] at hread
  · intro h timeoutUs select protocol buf ipPort hreads hbuf hlen
    rw [readInto_packet hreads _ _ hbuf, List.take_of_length_le hlen]
    exact h

/-- UDP from port 4660 to port 5600, with options in the IP header. -/
def optionsPacket : List UInt8 :=
  [0x46, 0, 0, 32, 0, 0, 0, 0, 64, 0x11, 0, 0, 10, 0, 0, 1, 10, 0, 0, 2] ++ [1, 1, 1, 0] ++
    [0x12, 0x34, 0x15, 0xe0, 0, 8, 0, 0]

/-- The port that is found is made of two of the options. -/
theorem not_setsDestPort_options : Ipv4.destPort optionsPacket = 5600 ∧
    TUNInterface.ipPort optionsPacket = 256 ∧ ¬SetsDestPort optionsPacket := by
  refine ⟨by decide, by decide, fun h ↦ ?_⟩
  have hport :=
    h 1000 .ready 0 tunBuffer 0 (.inr rfl) tunBuffer_ne (by rw [length_tunBuffer]; decide)
  rw [readInto_packet (.inr rfl) _ _ tunBuffer_ne, length_tunBuffer] at hport
  exact absurd hport (by decide)

end TUNInterface

/-! ## A turn of `tun_raw_thread` -/

/-- What happens in a turn.  `isFlushed` is what the encoders of the table answer. -/
structure TunTurn where
  select : Select
  reading : Reading
  ipPort : ℕ
  protocol : UInt8
  isFlushed : ℕ → Bool

namespace TunTurn

/-- The bytes that `::read` returned, if it was called. -/
def returned (timeoutUs : ℕ) (t : TunTurn) : List UInt8 :=
  if TUNInterface.Reads timeoutUs t.select then
    match t.reading with
    | .error => []
    | .packet pkt => pkt.take 2048
  else []

end TunTurn

namespace Bridge

variable (c : Bridge)

/-- A message to send: it is pushed with the options of its link, if there is one. -/
def pushes (msg : List UInt8) (ipPort : ℕ) : List Message :=
  (c.proto ipPort).toList.map fun proto ↦ proto.copy msg ipPort

/-- The encoders that are not flushed are. -/
def flushes (isFlushed : ℕ → Bool) : List Message :=
  c.portMsgLut.filterMap fun e ↦ if isFlushed e.2.enc then none else some (e.2.copy [] e.2.ipPort)

/-- The messages that a turn of `tun_raw_thread` pushes. -/
def tunRawTurn (timeoutUs : ℕ) (t : TunTurn) : List Message :=
  match TUNInterface.readInto timeoutUs t.select t.reading t.protocol tunBuffer t.ipPort with
  | (_, msg, ipPort) =>
      if msg ≠ [] then c.pushes msg ipPort else c.flushes t.isFlushed

/-- A message is pushed if bytes were read, and then it is these bytes with their port; otherwise
encoders are flushed at most. -/
def SendsWhatIsRead (timeoutUs : ℕ) (t : TunTurn) : Prop :=
  ((∃ m ∈ c.tunRawTurn timeoutUs t, m.msg ≠ []) ↔ t.returned timeoutUs ≠ []) ∧
    ∀ m ∈ c.tunRawTurn timeoutUs t, m.msg ≠ [] → c.tunRawTurn timeoutUs t = [m] ∧
      m.msg = t.returned timeoutUs ∧ m.ipPort = TUNInterface.ipPort (t.returned timeoutUs)

/-- `select` does not fail (or no link is found for the port that is left uninitialized), and for
what is read there is a link. -/
def TurnHandled (timeoutUs : ℕ) (t : TunTurn) : Prop :=
  if 0 < timeoutUs ∧ t.select = .error then c.proto t.ipPort = none
  else t.returned timeoutUs ≠ [] → c.proto (TUNInterface.ipPort (t.returned timeoutUs)) ≠ none

variable {c} {timeoutUs : ℕ} {t : TunTurn}

/-- When `select` fails, the buffer is left as it was allocated. -/
theorem tunRawTurn_error (h : 0 < timeoutUs ∧ t.select = .error) :
    c.tunRawTurn timeoutUs t = c.pushes tunBuffer t.ipPort ∧ t.returned timeoutUs = [] := by
  constructor
  · rw [tunRawTurn, TUNInterface.readInto_select_error h _ _ tunBuffer_ne]
    exact if_pos tunBuffer_ne
  · exact if_neg fun hreads ↦ hreads.not_select (by decide) h

/-- Otherwise what is in the buffer has been read. -/
theorem tunRawTurn_of_not_error (h : ¬(0 < timeoutUs ∧ t.select = .error)) :
    c.tunRawTurn timeoutUs t = if t.returned timeoutUs ≠ [] then
      c.pushes (t.returned timeoutUs) (TUNInterface.ipPort (t.returned timeoutUs))
    else c.flushes t.isFlushed := by
  by_cases hreads : TUNInterface.Reads timeoutUs t.select
  · rw [tunRawTurn, TunTurn.returned, if_pos hreads]
    cases t.reading with
    | error =>
        rw [TUNInterface.readInto_error hreads _ tunBuffer_ne]
        rfl
    | packet pkt =>
        rw [TUNInterface.readInto_packet hreads _ _ tunBuffer_ne, length_tunBuffer]
  · have htimeout : 0 < timeoutUs ∧ t.select = .timeout := by
      rw [TUNInterface.Reads, not_or] at hreads
      have hpos := Nat.pos_of_ne_zero hreads.1
      cases hselect : t.select with
      | error => exact absurd ⟨hpos, hselect⟩ h
      | timeout => exact ⟨hpos, rfl⟩
      | ready => exact absurd hselect hreads.2
    rw [tunRawTurn, TUNInterface.readInto_timeout htimeout _ _ tunBuffer_ne, TunTurn.returned,
      if_neg hreads]
    rfl

theorem msg_of_mem_flushes {isFlushed : ℕ → Bool} {m : Message} (h : m ∈ c.flushes isFlushed) :
    m.msg = [] := by
  obtain ⟨e, -, he⟩ := List.mem_filterMap.mp h
  split at he
  case isTrue => cases he
  case isFalse =>
    rw [← Option.some.inj he]
    rfl

/-- A turn does as it should exactly if it is handled. -/
theorem sendsWhatIsRead_turn (timeoutUs : ℕ) (t : TunTurn) :
    c.SendsWhatIsRead timeoutUs t ↔ c.TurnHandled timeoutUs t := by
  by_cases herror : 0 < timeoutUs ∧ t.select = .error
  · obtain ⟨hturn, hreturned⟩ := tunRawTurn_error (c := c) herror
    rw [SendsWhatIsRead, TurnHandled, if_pos herror, hturn, hreturned, pushes]
    cases hproto : c.proto t.ipPort with
    | none => simp
    | some proto => simp [Message.copy, tunBuffer_ne]
  · rw [SendsWhatIsRead, TurnHandled, if_neg herror, tunRawTurn_of_not_error herror]
    by_cases hnil : t.returned timeoutUs = []
    · rw [if_neg (not_not.mpr hnil)]
      refine ⟨fun _ h ↦ absurd hnil h, fun _ ↦ ⟨⟨?_, fun h ↦ absurd hnil h⟩, ?_⟩⟩
      · rintro ⟨m, hm, hne⟩
        exact absurd (msg_of_mem_flushes hm) hne
      · intro m hm hne
        exact absurd (msg_of_mem_flushes hm) hne
    · rw [if_pos hnil, pushes]
      cases hproto : c.proto (TUNInterface.ipPort (t.returned timeoutUs)) with
      | none => simp [hnil]
      | some proto => simp [hnil, Message.copy]

/-- In every run of the thread, what is pushed is what is read, exactly if every turn is handled. -/
theorem sendsWhatIsRead_iff (c : Bridge) (timeoutUs : ℕ) (ts : List TunTurn) :
    (∀ t ∈ ts, c.SendsWhatIsRead timeoutUs t) ↔ ∀ t ∈ ts, c.TurnHandled timeoutUs t :=
  forall₂_congr fun t _ ↦ sendsWhatIsRead_turn timeoutUs t

/-- The prototype of the default link. -/
def defaultLink : Message where
  msg := []
  port := 0
  ipPort := 0
  priority := 100
  opts := { linkType := .dataLink, dataRate := 18 }
  enc := 0

/-- A bridge with the default link. -/
def defaultBridge : Bridge where
  socket := { ground := false, mtu := 1500 }
  maxQueueSize := 200
  portMsgLut := [(0, defaultLink)]

/-- `select` fails, and the uninitialized port is 4660. -/
def failedSelect : TunTurn where
  select := .error
  reading := .error
  ipPort := 4660
  protocol := 0
  isFlushed := fun _ ↦ true

/-- When `select` fails, a packet of zeros goes to the default link. -/
theorem not_sendsWhatIsRead_failedSelect :
    defaultBridge.tunRawTurn 1000 failedSelect = [defaultLink.copy (List.replicate 2048 0) 4660] ∧
      ¬∀ t ∈ [failedSelect], defaultBridge.SendsWhatIsRead 1000 t := by
  have herror : 0 < 1000 ∧ failedSelect.select = .error := ⟨by decide, rfl⟩
  refine ⟨(tunRawTurn_error herror).1, fun h ↦ ?_⟩
  have hhandled := (sendsWhatIsRead_turn 1000 failedSelect).mp (h _ List.mem_cons_self)
  rw [TurnHandled, if_pos herror] at hhandled
  cases hhandled

/-- The step of the whole bridge that reads a packet pushes what the turn does. -/
theorem read_eq_tunRawTurn (c : Bridge) (s : BridgeState) (pkt : List UInt8) (hne : pkt ≠ [])
    (timeoutUs ipPort : ℕ) (protocol : UInt8) (isFlushed : ℕ → Bool) :
    c.read s pkt = { s with
      outqueue := (c.tunRawTurn timeoutUs ⟨.ready, .packet pkt, ipPort, protocol, isFlushed⟩).foldl
        SharedQueue.push s.outqueue } := by
  have hreturned : TunTurn.returned timeoutUs ⟨.ready, .packet pkt, ipPort, protocol, isFlushed⟩ =
      TUNInterface.read pkt := if_pos (.inr rfl)
  have hread : TUNInterface.read pkt ≠ [] := by
    simpa [TUNInterface.read] using hne
  rw [tunRawTurn_of_not_error (fun h ↦ Select.noConfusion h.2), hreturned, if_pos hread, pushes,
    Bridge.read]
  cases c.proto (TUNInterface.ipPort (TUNInterface.read pkt)) <;> rfl

end Bridge

end WfbBridge
