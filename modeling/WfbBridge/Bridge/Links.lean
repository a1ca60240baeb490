import Mathlib
import WfbBridge.Encoder.Basic
import WfbBridge.Library.SortedMap
import WfbBridge.Radio.Receive

/-!
# Links

How `main` of `wfb_bridge.cc` sets up the links, and where the port of a link is used as an
index: in `port_lut`, in the statistics of the sender, and by `fec_decode_thread` of the
other side.

The configuration file is the list of its sections, in the order of the set in which the
parser keeps them.
-/

namespace WfbBridge

open Checked

/-- `RAW_SOCKET_NPORTS`. -/
def rawSocketNPorts : ℕ := 16

/-- `WifiOptions`. -/
structure WifiOptions where
  linkType : LinkType
  dataRate : UInt8
deriving DecidableEq

/-- `Message`.  The encoder is shared by all messages of a link;
`enc` is its place among the encoders. -/
structure Message where
  msg : List UInt8
  port : UInt8
  ipPort : ℕ
  priority : ℕ
  opts : WifiOptions
  enc : ℕ
deriving DecidableEq

/-- `copy`. -/
def Message.copy (m : Message) (data : List UInt8) (ip : ℕ) : Message :=
  { m with msg := data, ipPort := ip }

/-- What `main` reads from a section, with the defaults. -/
structure Section where
  group : String
  type : String := "data"
  priority : ℤ := 100
  blocks : ℤ := 0
  fec : ℤ := 0
  datarate : ℤ := 18
  ip_port : ℤ := 0
deriving DecidableEq

namespace Section

variable (g : Section)

/-- Sections that don't start with `link-` are ignored. -/
def isLink : Bool := g.group.toList.take 5 = ['l', 'i', 'n', 'k', '-']

/-- `nblocks`. -/
def nblocks : ℕ := (g.blocks % 256).toNat

/-- `nfec_blocks`. -/
def nfecBlocks : ℕ := (g.fec % 256).toNat

/-- `ip_port`. -/
def ipPort : ℕ := (g.ip_port % 65536).toNat

/-- `opts`. -/
def opts : WifiOptions where
  linkType :=
    if g.type = "data" then .dataLink
    else if g.type = "short" then .shortDataLink
    else if g.type = "rts" then .rtsDataLink
    else .dataLink
  dataRate := UInt8.ofNat (g.datarate % 256).toNat

/-- The prototype message of a link. -/
def prototype (blocksize : ℕ) (port : UInt8) (enc : ℕ) : Message where
  msg := List.replicate blocksize 0
  port
  ipPort := g.ipPort
  priority := (g.priority % 256).toNat
  opts := g.opts
  enc

/-- The encoder of a link. -/
def encoder (blocksize : ℕ) : FECEncoder := FECEncoder.new g.nblocks g.nfecBlocks blocksize

end Section

/-- What the loop over the sections fills in.  `portLut` starts uninitialized. -/
structure Links where
  portMsgLut : List (ℕ × Message) := []
  portLut : List (Option ℕ) := List.replicate rawSocketNPorts none
  encoders : List FECEncoder := []
  port : UInt8 := 0
deriving DecidableEq

namespace Links

/-- One turn of the loop. -/
def addSection (blocksize : ℕ) (l : Links) (g : Section) : Except Fault Links :=
  if g.isLink then
    if l.port.toNat < l.portLut.length then
      .ok { portMsgLut := SortedMap.insert g.ipPort (g.prototype blocksize l.port l.encoders.length)
              l.portMsgLut
            portLut := l.portLut.set l.port.toNat (some g.ipPort)
            encoders := l.encoders ++ [g.encoder blocksize]
            port := l.port + 1 }
    else .error .index
  else .ok l

/-- The loop over the sections. -/
def configure (blocksize : ℕ) (sections : List Section) : Except Fault Links :=
  sections.foldlM (addSection blocksize) {}

end Links

/-! ## The links that are set up -/

/-- Link `i` is on port `i`. -/
structure Links.Configured (blocksize : ℕ) (gs : List Section) (l : Links) : Prop where
  port : l.port.toNat = gs.length
  portLut : l.portLut.length = rawSocketNPorts
  encoders : l.encoders = gs.map fun g ↦ g.encoder blocksize
  mem_lut : ∀ e ∈ l.portMsgLut, ∃ (i : ℕ) (g : Section), gs[i]? = some g ∧ e.1 = g.ipPort ∧
    e.2 = g.prototype blocksize (UInt8.ofNat i) i
  find_lut : (gs.map Section.ipPort).Nodup → ∀ (i : ℕ) (g : Section), gs[i]? = some g →
    SortedMap.find g.ipPort l.portMsgLut = some (g.prototype blocksize (UInt8.ofNat i) i)

namespace Links

variable {blocksize : ℕ} {gs sections : List Section} {l : Links} {g : Section}

theorem Configured.empty (blocksize : ℕ) : Configured blocksize [] {} :=
  ⟨rfl, rfl, rfl, by simp, by simp⟩

/-- A link is added as long as there is a port for it. -/
theorem Configured.addSection (h : l.Configured blocksize gs) (hg : g.isLink = true)
    (hlt : gs.length < rawSocketNPorts) :
    ∃ l', l.addSection blocksize g = .ok l' ∧ l'.Configured blocksize (gs ++ [g]) := by
  have hroom : l.port.toNat < l.portLut.length := by rw [h.port, h.portLut]; exact hlt
  have hport : l.port = UInt8.ofNat gs.length := by rw [← h.port, UInt8.ofNat_toNat]
  have henc : l.encoders.length = gs.length := by rw [h.encoders, List.length_map]
  rw [Links.addSection, if_pos hg, if_pos hroom, henc, hport]
  refine ⟨_, rfl, ?_, ?_, ?_, ?_, ?_⟩
  · have hmod : ∀ n < 16, (UInt8.ofNat n + 1).toNat = n + 1 := by decide
    rw [List.length_append]
    exact hmod gs.length hlt
  · rw [List.length_set, h.portLut]
  · rw [h.encoders, List.map_append, List.map_singleton]
  · intro e he
    rcases SortedMap.mem_insert he with rfl | he
    · exact ⟨gs.length, g, List.getElem?_concat_length, rfl, rfl⟩
    · obtain ⟨i, g', hi, hk, hm⟩ := h.mem_lut e he
      refine ⟨i, g', ?_, hk, hm⟩
      rw [List.getElem?_append_left (List.getElem?_eq_some_iff.mp hi).1, hi]
  · intro hnodup i g' hi
    rw [List.map_append, List.nodup_append] at hnodup
    obtain ⟨hold, -, hnew⟩ := hnodup
    rw [SortedMap.find_insert]
    by_cases hlast : i < gs.length
    · rw [List.getElem?_append_left hlast] at hi
      have hne : g'.ipPort ≠ g.ipPort :=
        hnew _ (List.mem_map_of_mem (List.mem_of_getElem? hi)) _ (by simp)
      rw [if_neg hne, h.find_lut hold i g' hi]
    · have hi' := (List.getElem?_eq_some_iff.mp hi).1
      rw [List.length_append, List.length_singleton] at hi'
      obtain rfl : i = gs.length := by omega
      rw [List.getElem?_concat_length] at hi
      obtain rfl := Option.some.inj hi
      rw [if_pos rfl]

/-- With no port left the loop writes past `port_lut`. -/
theorem Configured.addSection_error (h : l.Configured blocksize gs) (hg : g.isLink = true)
    (hge : rawSocketNPorts ≤ gs.length) : l.addSection blocksize g = .error .index := by
  have hroom : ¬l.port.toNat < l.portLut.length := by rw [h.port, h.portLut]; omega
  rw [Links.addSection, if_pos hg, if_neg hroom]

/-- The loop over the sections, from a state with the links `gs` on. -/
theorem Configured.foldlM (h : l.Configured blocksize gs) (hle : gs.length ≤ rawSocketNPorts)
    (sections : List Section) :
    (gs.length + (sections.filter Section.isLink).length ≤ rawSocketNPorts ∧
      ∃ l', sections.foldlM (Links.addSection blocksize) l = .ok l' ∧
        l'.Configured blocksize (gs ++ sections.filter Section.isLink)) ∨
    (rawSocketNPorts < gs.length + (sections.filter Section.isLink).length ∧
      sections.foldlM (Links.addSection blocksize) l = .error .index) := by
  induction sections generalizing l gs with
  | nil =>
      refine .inl ⟨hle, l, rfl, ?_⟩
      rwa [List.filter_nil, List.append_nil]
  | cons g sections ih =>
      rw [List.foldlM_cons]
      by_cases hg : g.isLink = true
      · rw [List.filter_cons_of_pos hg, List.length_cons]
        by_cases hlt : gs.length < rawSocketNPorts
        · obtain ⟨l', hadd, h'⟩ := h.addSection hg hlt
          rw [hadd, ok_bind]
          have hih := ih h' (by rw [List.length_append]; exact hlt)
          rwa [List.length_append, List.length_singleton, List.append_assoc, Nat.add_assoc,
            Nat.add_comm 1] at hih
        · rw [h.addSection_error hg (Nat.not_lt.mp hlt)]
          exact .inr ⟨by omega, rfl⟩
      · rw [List.filter_cons_of_neg hg]
        have hskip : l.addSection blocksize g = .ok l := if_neg hg
        rw [hskip, ok_bind]
        exact ih h hle

/-- The ports of the links are in range. -/
theorem Configured.exists_prototype (h : l.Configured blocksize gs)
    (hle : gs.length ≤ rawSocketNPorts) {m : Message} (hm : m ∈ l.portMsgLut.map Prod.snd) :
    ∃ (i : ℕ) (g : Section), gs[i]? = some g ∧ (UInt8.ofNat i).toNat = i ∧ i < rawSocketNPorts ∧
      m = g.prototype blocksize (UInt8.ofNat i) i := by
  obtain ⟨e, he, rfl⟩ := List.mem_map.mp hm
  obtain ⟨i, g, hg, -, hm⟩ := h.mem_lut e he
  have hi : i < rawSocketNPorts := (List.getElem?_eq_some_iff.mp hg).1.trans_le hle
  exact ⟨i, g, hg, UInt8.toNat_ofNat_of_lt' (hi.trans (by decide)), hi, hm⟩

end Links

/-! ## The uses of a port -/

/-- The counters of `TransferStats` that `add_send_block` changes. -/
structure SendStats where
  sendBytes : UInt32 := 0
  sendBlocks : UInt32 := 0
  injectErrors : UInt32 := 0
  flushes : UInt32 := 0
  portBlocks : List UInt32 := List.replicate rawSocketNPorts 0
deriving DecidableEq

/-- `add_send_block`, without the moving averages and the counters of the ip ports. -/
def SendStats.addSendBlock (s : SendStats) (port : UInt8) (bytes : UInt32)
    (injectError flush : Bool) :
    Except Fault SendStats :=
  let s := { s with
    sendBytes := s.sendBytes + bytes
    sendBlocks := s.sendBlocks + 1
    injectErrors := s.injectErrors + if injectError then 1 else 0
    flushes := s.flushes + if flush then 1 else 0 }
  if port.toNat ≤ rawSocketNPorts then
    match s.portBlocks[port.toNat]? with
    | some n => .ok { s with portBlocks := s.portBlocks.set port.toNat (n + 1) }
    | none => .error .index
  -- an error is logged
  else .ok s

/-- The decoder to which `fec_decode_thread` gives a message. -/
def decoderIdx (msg : MonitorMessage) : Option ℕ :=
  if rawSocketNPorts ≤ u8 msg.port then none else some (u8 msg.port)

/-- A packet of the link of `m`, sent and received, is given to decoder `i`. -/
def Feeds (m : Message) (i : ℕ) : Prop :=
  ∃ (s : RawSendSocket) (pad2 now : UInt8) (pkt frame rt fcs : List UInt8) (curTime : ℕ)
    (msg : MonitorMessage),
    s.send pad2 now pkt m.port m.opts.linkType m.opts.dataRate = .ok (some frame) ∧
    WellFormedRadiotap rt ∧ fcs.length = 4 ∧
    RawReceiveSocket.receive curTime
      (.frame (rt ++ frame.drop (s.radiotapHeader pad2 m.opts.dataRate).length ++ fcs)
        (rt ++ frame.drop (s.radiotapHeader pad2 m.opts.dataRate).length ++ fcs).length) =
      .ok (some msg) ∧
    decoderIdx msg = some i

/-- Every index taken from a port is in range, and no decoder gets packets of two links. -/
def LinksIsolated (blocksize : ℕ) (sections : List Section) : Prop :=
  ∃ l, Links.configure blocksize sections = .ok l ∧
    (∀ m ∈ l.portMsgLut.map Prod.snd, m.port.toNat < rawSocketNPorts ∧
      (∀ (s : SendStats) bytes injectError flush, s.portBlocks.length = rawSocketNPorts →
        ∃ s', s.addSendBlock m.port bytes injectError flush = .ok s') ∧
      ∀ i, Feeds m i → i < rawSocketNPorts) ∧
    ∀ m ∈ l.portMsgLut.map Prod.snd, ∀ m' ∈ l.portMsgLut.map Prod.snd, m ≠ m' →
      ∀ i, Feeds m i → ¬Feeds m' i

theorem SendStats.addSendBlock_ok {s : SendStats} {port : UInt8}
    (hs : s.portBlocks.length = rawSocketNPorts) (hport : port.toNat < rawSocketNPorts)
    (bytes : UInt32) (injectError flush : Bool) :
    ∃ s', s.addSendBlock port bytes injectError flush = .ok s' := by
  rw [← hs] at hport
  simp only [SendStats.addSendBlock, ← hs, if_pos hport.le, List.getElem?_eq_getElem hport]
  exact ⟨_, rfl⟩

/-- Packets of a link are given to the decoder of its port. -/
theorem Feeds.eq_port {m : Message} {i : ℕ} (h : Feeds m i)
    (hport : m.port.toNat < rawSocketNPorts) :
    i = m.port.toNat := by
  obtain ⟨s, pad2, now, pkt, frame, rt, fcs, curTime, msg, hsend, hrt, -, hreceive, hidx⟩ := h
  have h8 := hrt.length_ge
  have hfour : 4 < (RawSendSocket.ieeeHeader now m.opts.linkType).length := by
    rcases RawSendSocket.length_ieeeHeader now m.opts.linkType with h | h <;> omega
  rw [RawSendSocket.send_eq_some hsend, List.drop_left, List.append_assoc] at hreceive
  have hbyte : (rt ++ ((RawSendSocket.ieeeHeader now m.opts.linkType).set 4
      (RawSendSocket.portByte s.ground m.port) ++ pkt ++ fcs))[rt.length + 4]? =
      some (RawSendSocket.portByte s.ground m.port) := by
    rw [List.getElem?_append_right (by omega), Nat.add_sub_cancel_left, List.append_assoc,
      List.getElem?_append_left (by rwa [List.length_set]), List.getElem?_set_self hfour]
  have hmsg := RawReceiveSocket.receiveFrame_port
    ((readLe16_append (by omega)).trans hrt.length) hbyte hreceive
  rw [(RawSendSocket.portByte_nibbles s.ground hport).2] at hmsg
  have hu : u8 msg.port = m.port.toNat := by
    rw [hmsg]
    exact u8_of_lt m.port.toNat_lt
  rw [decoderIdx, hu, if_neg (Nat.not_le.mpr hport)] at hidx
  exact (Option.some.inj hidx).symm

/-- The links are isolated if there are at most as many as ports. -/
theorem linksIsolated_iff (blocksize : ℕ) (sections : List Section) :
    LinksIsolated blocksize sections ↔
      (sections.filter Section.isLink).length ≤ rawSocketNPorts := by
  have hloop := (Links.Configured.empty blocksize).foldlM (Nat.zero_le _) sections
  rw [List.length_nil, Nat.zero_add, List.nil_append] at hloop
  rcases hloop with ⟨hle, l, hl, hconf⟩ | ⟨hlt, herror⟩
  · refine iff_of_true ⟨l, hl, ?_, ?_⟩ hle
    · intro m hm
      obtain ⟨i, g, -, hi, hlt, rfl⟩ := hconf.exists_prototype hle hm
      have hport : (g.prototype blocksize (UInt8.ofNat i) i).port.toNat < rawSocketNPorts :=
        hi.trans_lt hlt
      refine ⟨hport, fun s bytes injectError flush hs ↦
        SendStats.addSendBlock_ok hs hport bytes injectError flush, fun j hj ↦ ?_⟩
      rw [hj.eq_port hport]
      exact hport
    · intro m hm m' hm' hne j hj hj'
      obtain ⟨i, g, hg, hi, hlt, rfl⟩ := hconf.exists_prototype hle hm
      obtain ⟨i', g', hg', hi', hlt', rfl⟩ := hconf.exists_prototype hle hm'
      -- the decoder tells the ports, and these tell the links
      have hj : j = i := (hj.eq_port (hi.trans_lt hlt)).trans hi
      have hj' : j = i' := (hj'.eq_port (hi'.trans_lt hlt')).trans hi'
      subst hj hj'
      rw [hg] at hg'
      exact hne (by rw [Option.some.inj hg'])
  · refine iff_of_false ?_ (Nat.not_le.mpr hlt)
    rintro ⟨l, hl, -⟩
    rw [Links.configure, herror] at hl
    cases hl

/-- A configuration with seventeen links. -/
def seventeenLinks : List Section :=
  ["link-a", "link-b", "link-c", "link-d", "link-e", "link-f", "link-g", "link-h", "link-i",
    "link-j", "link-k", "link-l", "link-m", "link-n", "link-o", "link-p", "link-q"].zipIdx.map
      fun gi ↦ { group := gi.1, ip_port := gi.2 }

/-- The port of the last one is past `port_lut`. -/
theorem not_linksIsolated_seventeen : (seventeenLinks.map Section.group).Nodup ∧
    (seventeenLinks.map Section.ipPort).Nodup ∧ ¬LinksIsolated 1436 seventeenLinks := by
  refine ⟨by decide, by decide, ?_⟩
  rintro ⟨l, hl, -⟩
  have herror : Links.configure 1436 seventeenLinks = .error .index := by decide
  rw [herror] at hl
  cases hl

end WfbBridge
