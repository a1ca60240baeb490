import Mathlib
import WfbBridge.Bridge.Channel

/-!
# From TUN device to TUN device

Without losses, the other side writes what was read, link by link.  `Bridge.Inv` splits the state of
the threads by links: what is in the queues, in the air and inside the encoder and the decoder of a
link is the `LinkView` of the link, and every step of a thread is a step of one of them.
-/

namespace WfbBridge

open Checked

/-- A configuration with links that can work: there is a port for each of them, their ip ports are
distinct, one is the default, and FEC is off or in the limits of the code. -/
structure BridgeConfig where
  sections : List Section
  socket : RawSendSocket
  maxQueueSize : ℕ
  mtu_gt : 32 < socket.mtu := by decide
  mtu_lt : socket.mtu < 65536 := by decide
  length_le : (sections.filter Section.isLink).length ≤ rawSocketNPorts := by decide
  nodup : ((sections.filter Section.isLink).map Section.ipPort).Nodup := by decide
  default_mem : 0 ∈ (sections.filter Section.isLink).map Section.ipPort := by decide
  valid : ∀ g ∈ sections.filter Section.isLink,
    g.nblocks = 0 ∨ g.nfecBlocks = 0 ∨ g.nblocks ≤ 128 ∧ g.nfecBlocks ≤ 128 := by decide

namespace BridgeConfig

variable (b : BridgeConfig)

/-- The sections of the links. -/
def links : List Section := b.sections.filter Section.isLink

/-- `blocksize`. -/
def blocksize : ℕ := b.socket.mtu - fecOverhead - rawSocketOverhead

/-- The link of a section. -/
def link (g : Section) (hg : g ∈ b.links) : Link where
  mtu := b.socket.mtu
  nblocks := g.nblocks
  nfecBlocks := g.nfecBlocks
  mtu_gt := b.mtu_gt
  mtu_lt := b.mtu_lt
  valid := b.valid g hg

/-- The threads, with the table that `main` has set up. -/
def bridge (l : Links) : Bridge where
  socket := b.socket
  maxQueueSize := b.maxQueueSize
  portMsgLut := l.portMsgLut

/-- The threads start with empty queues. -/
def start (l : Links) : BridgeState where
  encoders := l.encoders
  outqueue := .new b.maxQueueSize
  inqueue := .new b.maxQueueSize

/-- A packet to `ipPort` goes to the link with this port, and to link 0 if there is none. -/
def MapsTo (g : Section) (ipPort : ℕ) : Prop :=
  g.ipPort = ipPort ∨ g.ipPort = 0 ∧ ipPort ∉ b.links.map Section.ipPort

instance (g : Section) (ipPort : ℕ) : Decidable (b.MapsTo g ipPort) :=
  inferInstanceAs (Decidable (_ ∨ _))

/-- The packets that map to a link. -/
def readsOf (g : Section) (reads : List (List UInt8)) : List (List UInt8) :=
  reads.filter fun pkt ↦ b.MapsTo g (TUNInterface.ipPort pkt)

variable {b}

theorem links_length_le : b.links.length ≤ rawSocketNPorts := b.length_le

theorem ipPort_inj {i j : ℕ} {g g' : Section} (hi : b.links[i]? = some g)
    (hj : b.links[j]? = some g') (h : g.ipPort = g'.ipPort) : i = j := by
  have hlt : i < (b.links.map Section.ipPort).length := by
    rw [List.length_map]
    exact (List.getElem?_eq_some_iff.mp hi).1
  refine (List.getElem?_inj hlt b.nodup).mp ?_
  rw [List.getElem?_map, List.getElem?_map, hi, hj, Option.map_some, Option.map_some, h]

/-- The prototype that `tun_raw_thread` finds is the one of the link to which the port maps. -/
theorem proto_spec {l : Links} (hl : l.Configured b.blocksize b.links) (ipPort : ℕ) :
    ∃ (i : ℕ) (g : Section), b.links[i]? = some g ∧
      (b.bridge l).proto ipPort = some (g.prototype b.blocksize (UInt8.ofNat i) i) ∧
      ∀ (j : ℕ) (g' : Section), b.links[j]? = some g' → (b.MapsTo g' ipPort ↔ j = i) := by
  by_cases hmem : ipPort ∈ b.links.map Section.ipPort
  · obtain ⟨g, hg, rfl⟩ := List.mem_map.mp hmem
    obtain ⟨i, hi⟩ := List.mem_iff_getElem?.mp hg
    refine ⟨i, g, hi, ?_, fun j g' hj ↦ ⟨?_, ?_⟩⟩
    · change (SortedMap.find g.ipPort l.portMsgLut).or _ = _
      rw [hl.find_lut b.nodup i g hi, Option.some_or]
    · rintro (h | ⟨-, hnot⟩)
      · exact ipPort_inj hj hi h
      · exact absurd hmem hnot
    · rintro rfl
      rw [hi] at hj
      exact .inl (by rw [Option.some.inj hj])
  · obtain ⟨g, hg, hzero⟩ := List.mem_map.mp b.default_mem
    obtain ⟨i, hi⟩ := List.mem_iff_getElem?.mp hg
    have hnone : SortedMap.find ipPort l.portMsgLut = none := by
      refine Option.eq_none_iff_forall_ne_some.mpr fun m hm ↦ hmem ?_
      obtain ⟨j, g', hj, hk, -⟩ := hl.mem_lut _ (SortedMap.mem_of_find hm)
      exact List.mem_map.mpr ⟨g', List.mem_of_getElem? hj, hk.symm⟩
    refine ⟨i, g, hi, ?_, fun j g' hj ↦ ⟨?_, ?_⟩⟩
    · change (SortedMap.find ipPort l.portMsgLut).or (SortedMap.find 0 l.portMsgLut) = _
      have hfind := hl.find_lut b.nodup i g hi
      rw [hzero] at hfind
      rw [hnone, hfind, Option.none_or]
    · rintro (h | ⟨h, -⟩)
      · exact absurd (List.mem_map.mpr ⟨g', List.mem_of_getElem? hj, h⟩) hmem
      · exact ipPort_inj hj hi (h.trans hzero.symm)
    · rintro rfl
      obtain rfl := Option.some.inj (hi.symm.trans hj)
      exact .inr ⟨hzero, hmem⟩

end BridgeConfig

/-! ## The links of a state -/

/-- What belongs to link `i`. -/
def onLink {α β : Type} (port : α → ℕ) (data : α → β) (i : ℕ) (xs : List α) : List β :=
  (xs.filter (port · = i)).map data

section OnLink

variable {α β : Type} {port : α → ℕ} {data : α → β} {i : ℕ} {x : α} {xs : List α}

@[simp] theorem onLink_nil : onLink port data i [] = [] := rfl

theorem onLink_cons_self (h : port x = i) :
    onLink port data i (x :: xs) = data x :: onLink port data i xs := by
  rw [onLink, List.filter_cons_of_pos (by simpa using h), List.map_cons, onLink]

theorem onLink_cons_ne (h : port x ≠ i) : onLink port data i (x :: xs) = onLink port data i xs := by
  rw [onLink, List.filter_cons_of_neg (by simpa using h), onLink]

theorem onLink_append (ys : List α) :
    onLink port data i (xs ++ ys) = onLink port data i xs ++ onLink port data i ys := by
  rw [onLink, List.filter_append, List.map_append, onLink, onLink]

theorem onLink_concat_self (h : port x = i) :
    onLink port data i (xs ++ [x]) = onLink port data i xs ++ [data x] := by
  rw [onLink_append, onLink_cons_self h, onLink_nil]

theorem onLink_concat_ne (h : port x ≠ i) :
    onLink port data i (xs ++ [x]) = onLink port data i xs := by
  rw [onLink_append, onLink_cons_ne h, onLink_nil, List.append_nil]

end OnLink

/-- A frame in the air with a packet of a port. -/
def IsFrame (ground : Bool) (frame : List UInt8) (p : ℕ × List UInt8) : Prop :=
  ∃ now type, frame =
    (RawSendSocket.ieeeHeader now type).set 4 (RawSendSocket.portByte ground (UInt8.ofNat p.1)) ++
      p.2

/-- All blocks are taken out. -/
def FECDecoder.drain (d : FECDecoder) : FECDecoder := { d with outBlocks := [] }

namespace BridgeState

/-- The part of the state that belongs to link `i`.  `pkts` are the packets in the air with their
ports, and `ms` is what is left to pass on of the blocks of the decoder. -/
def view (s : BridgeState) (pkts : List (ℕ × List UInt8)) (i : ℕ) (e : FECEncoder) (d : FECDecoder)
    (ms : List (List UInt8)) : LinkView where
  queued := onLink Message.enc Message.msg i s.outqueue.queue
  enc := e.drain
  flight := onLink MonitorMessage.port MonitorMessage.data i s.inqueue.queue ++
    (onLink Prod.fst Prod.snd i pkts ++ e.outBlocks.map FECBlock.packet)
  dec := d.drain
  out := onLink Prod.fst Prod.snd i s.sendQueue.queue ++ ms

/-- Link `i` is in order. -/
structure LinkInv (l : Link) (reads written : List (List UInt8)) (pkts : List (ℕ × List UInt8))
    (i : ℕ) (s : BridgeState) (e : FECEncoder) (d : FECDecoder) (ms : List (List UInt8)) :
    Prop where
  encoder : s.encoders[i]? = some e
  decoder : s.decoders[i]? = some d
  fits : ∀ b ∈ e.outBlocks, b.packet ≠ [] ∧ b.pktLength ≤ l.blocksize + 4
  sending : s.sending.map Message.enc ≠ some i → e.outBlocks = []
  decoding : s.decoding ≠ some i → d.outBlocks = []
  finished : finished d.outBlocks = .ok ms
  inv : (s.view pkts i e d ms).Inv l reads written

/-- A step from `s` to `s'` leaves link `i` alone. -/
structure Untouched (i : ℕ) (pkts pkts' : List (ℕ × List UInt8)) (s s' : BridgeState) : Prop where
  encoder : s'.encoders[i]? = s.encoders[i]?
  decoder : s'.decoders[i]? = s.decoders[i]?
  sending : s'.sending.map Message.enc ≠ some i → s.sending.map Message.enc ≠ some i
  decoding : s'.decoding ≠ some i → s.decoding ≠ some i
  view : ∀ e d ms, s'.view pkts' i e d ms = s.view pkts i e d ms

theorem LinkInv.frame {l : Link} {reads written : List (List UInt8)}
    {pkts pkts' : List (ℕ × List UInt8)} {i : ℕ} {s s' : BridgeState} {e : FECEncoder}
    {d : FECDecoder} {ms : List (List UInt8)} (h : s.LinkInv l reads written pkts i e d ms)
    (hframe : Untouched i pkts pkts' s s') : s'.LinkInv l reads written pkts' i e d ms where
  encoder := hframe.encoder.trans h.encoder
  decoder := hframe.decoder.trans h.decoder
  fits := h.fits
  sending hne := h.sending (hframe.sending hne)
  decoding hne := h.decoding (hframe.decoding hne)
  finished := h.finished
  inv := hframe.view e d ms ▸ h.inv

end BridgeState

/-- The invariant of the threads. -/
structure Bridge.Inv (b : BridgeConfig) (reads : List (List UInt8))
    (written : List (ℕ × List UInt8)) (pkts : List (ℕ × List UInt8)) (s : BridgeState) : Prop where
  queued : ∀ m ∈ s.outqueue.queue, m.enc < b.links.length ∧ m.port = UInt8.ofNat m.enc
  sending : ∀ m ∈ s.sending, m.enc < b.links.length ∧ m.port = UInt8.ofNat m.enc
  air : List.Forall₂ (IsFrame b.socket.ground) s.air pkts
  packets : ∀ p ∈ pkts, p.1 < b.links.length ∧ p.2 ≠ []
  inqueue : ∀ m ∈ s.inqueue.queue, m.port < b.links.length
  decoding : ∀ i ∈ s.decoding, i < b.links.length
  link : ∀ (i : ℕ) (g : Section) (hg : b.links[i]? = some g), ∃ e d ms,
    s.LinkInv (b.link g (List.mem_of_getElem? hg)) (b.readsOf g reads)
      (onLink Prod.fst Prod.snd i written) pkts i e d ms

namespace Bridge.Inv

variable {b : BridgeConfig} {l : Links} {reads : List (List UInt8)}
  {written pkts : List (ℕ × List UInt8)} {s : BridgeState}

/-- At the start. -/
theorem init (hl : l.Configured b.blocksize b.links) : Inv b [] [] [] (b.start l) := by
  refine ⟨by simp [BridgeConfig.start, SharedQueue.new], by simp [BridgeConfig.start], .nil,
    by simp, by simp [BridgeConfig.start, SharedQueue.new], by simp [BridgeConfig.start],
    fun i g hg ↦ ?_⟩
  have hi : i < rawSocketNPorts :=
    (List.getElem?_eq_some_iff.mp hg).1.trans_le BridgeConfig.links_length_le
  refine ⟨g.encoder b.blocksize, {}, [], ?_, ?_, by simp [Section.encoder, FECEncoder.new],
    fun _ ↦ rfl, fun _ ↦ rfl, rfl, LinkView.Inv.init _⟩
  · change l.encoders[i]? = _
    rw [hl.encoders, List.getElem?_map, hg, Option.map_some]
  · change (List.replicate rawSocketNPorts _)[i]? = _
    rw [List.getElem?_replicate, if_pos hi]

/-- A message is queued for link `i`. -/
theorem enqueue (h : Inv b reads written pkts s) {i : ℕ} {g : Section} (hg : b.links[i]? = some g)
    {m : Message} (henc : m.enc = i) (hport : m.port = UInt8.ofNat i)
    (hroom : s.outqueue.size < s.outqueue.maxSize) {reads' : List (List UInt8)}
    (hself : ∀ {v : LinkView}, v.Inv (b.link g (List.mem_of_getElem? hg)) (b.readsOf g reads)
      (onLink Prod.fst Prod.snd i written) →
      { v with queued := v.queued ++ [m.msg] }.Inv (b.link g (List.mem_of_getElem? hg))
        (b.readsOf g reads') (onLink Prod.fst Prod.snd i written))
    (hother : ∀ (j : ℕ) (g' : Section), b.links[j]? = some g' → j ≠ i →
      b.readsOf g' reads' = b.readsOf g' reads) :
    Inv b reads' written pkts { s with outqueue := s.outqueue.push m } := by
  rw [SharedQueue.push_of_lt hroom]
  refine ⟨?_, h.sending, h.air, h.packets, h.inqueue, h.decoding, fun j g' hj ↦ ?_⟩
  · intro m' hm'
    rcases List.mem_append.mp hm' with hm' | hm'
    · exact h.queued m' hm'
    · rw [List.mem_singleton.mp hm', henc]
      exact ⟨(List.getElem?_eq_some_iff.mp hg).1, hport⟩
  · obtain ⟨e, d, ms, hlink⟩ := h.link j g' hj
    refine ⟨e, d, ms, hlink.encoder, hlink.decoder, hlink.fits, hlink.sending, hlink.decoding,
      hlink.finished, ?_⟩
    by_cases hji : j = i
    · subst hji
      obtain rfl := Option.some.inj (hg.symm.trans hj)
      rw [BridgeState.view, onLink_concat_self henc]
      exact hself hlink.inv
    · rw [BridgeState.view, onLink_concat_ne (henc ▸ Ne.symm hji), hother j g' hj hji]
      exact hlink.inv

/-- A packet is read. -/
theorem read (h : Inv b reads written pkts s) (hl : l.Configured b.blocksize b.links)
    {pkt : List UInt8} (hne : pkt ≠ []) (hfit : pkt.length + 2 ≤ b.blocksize)
    (hroom : s.outqueue.size < s.outqueue.maxSize) :
    Inv b (reads ++ [TUNInterface.read pkt]) written pkts ((b.bridge l).read s pkt) := by
  obtain ⟨i, g, hg, hproto, hmaps⟩ :=
    BridgeConfig.proto_spec hl (TUNInterface.ipPort (TUNInterface.read pkt))
  simp only [Bridge.read, hproto]
  refine h.enqueue hg rfl rfl hroom ?_ ?_
  · intro v hv
    have hself : b.readsOf g (reads ++ [TUNInterface.read pkt]) =
        b.readsOf g reads ++ [TUNInterface.read pkt] := by
      rw [BridgeConfig.readsOf, List.filter_append, List.filter_cons_of_pos, List.filter_nil]
      · rfl
      · rw [decide_eq_true_eq]
        exact (hmaps i g hg).mpr rfl
    rw [hself]
    refine hv.read ?_ ?_
    · cases pkt with
      | nil => exact absurd rfl hne
      | cons x pkt => exact List.cons_ne_nil _ _
    · refine le_trans ?_ hfit
      change (pkt.take 2048).length + 2 ≤ _
      rw [List.length_take]
      omega
  · intro j g' hj hne
    rw [BridgeConfig.readsOf, List.filter_append, List.filter_cons_of_neg, List.filter_nil,
      List.append_nil]
    · rfl
    · rw [decide_eq_true_eq]
      exact fun hto ↦ hne ((hmaps j g' hj).mp hto)

/-- A turn of the loop that flushes the encoders. -/
theorem flush (h : Inv b reads written pkts s) (hl : l.Configured b.blocksize b.links) (ipPort : ℕ)
    (hroom : s.outqueue.size < s.outqueue.maxSize) :
    ∃ s', (b.bridge l).flush s ipPort = .ok s' ∧ Inv b reads written pkts s' := by
  rw [Bridge.flush]
  cases hfind : SortedMap.find ipPort (b.bridge l).portMsgLut with
  | none => exact ⟨s, rfl, h⟩
  | some proto =>
      obtain ⟨i, g, hg, -, rfl : proto = _⟩ := hl.mem_lut _ (SortedMap.mem_of_find hfind)
      obtain ⟨e, d, ms, hlink⟩ := h.link i g hg
      have hread : readAt .index s.encoders (g.prototype b.blocksize (UInt8.ofNat i) i).enc =
          (.ok e : Except Fault FECEncoder) := readAt_eq_ok.mpr hlink.encoder
      simp only [hread, ok_bind]
      by_cases hflushed : e.isFlushed = true
      · rw [if_pos hflushed]
        exact ⟨s, rfl, h⟩
      · rw [if_neg hflushed]
        exact ⟨_, rfl, h.enqueue hg rfl rfl hroom (fun hv ↦ hv.queueFlush) fun _ _ _ _ ↦ rfl⟩

theorem exists_section {i : ℕ} (hi : i < b.links.length) : ∃ g, b.links[i]? = some g :=
  ⟨_, List.getElem?_eq_getElem hi⟩

/-- A step that is about link `i` only. -/
theorem forall_link (h : Inv b reads written pkts s) {i : ℕ} {g : Section}
    (hg : b.links[i]? = some g) {pkts' : List (ℕ × List UInt8)} {s' : BridgeState}
    (hself : ∃ e d ms, s'.LinkInv (b.link g (List.mem_of_getElem? hg)) (b.readsOf g reads)
      (onLink Prod.fst Prod.snd i written) pkts' i e d ms)
    (hother : ∀ j, j ≠ i → BridgeState.Untouched j pkts pkts' s s') :
    ∀ (j : ℕ) (g' : Section) (hj : b.links[j]? = some g'), ∃ e d ms,
      s'.LinkInv (b.link g' (List.mem_of_getElem? hj)) (b.readsOf g' reads)
        (onLink Prod.fst Prod.snd j written) pkts' j e d ms := by
  intro j g' hj
  by_cases hji : j = i
  · subst hji
    obtain rfl := Option.some.inj (hg.symm.trans hj)
    exact hself
  · obtain ⟨e₂, d₂, ms₂, hlink₂⟩ := h.link j g' hj
    exact ⟨e₂, d₂, ms₂, hlink₂.frame (hother j hji)⟩

/-- The next message goes into its encoder. -/
theorem take (h : Inv b reads written pkts s) :
    ∃ s', Bridge.take s = .ok s' ∧ Inv b reads written pkts s' := by
  rw [Bridge.take]
  cases hsending : s.sending with
  | some m => exact ⟨s, rfl, h⟩
  | none =>
      cases hqueue : s.outqueue.queue with
      | nil =>
          simp only [SharedQueue.tryPop, hqueue]
          exact ⟨s, rfl, h⟩
      | cons m rest =>
          obtain ⟨hlt, hport⟩ := h.queued m (hqueue ▸ List.mem_cons_self)
          obtain ⟨g, hg⟩ := exists_section hlt
          obtain ⟨e, d, ms, hlink⟩ := h.link m.enc g hg
          have hnone : ∀ j, s.sending.map Message.enc ≠ some j := by
            intro j
            rw [hsending]
            exact Option.some_ne_none j ∘ Eq.symm
          have hout : e.outBlocks = [] := hlink.sending (hnone _)
          have hdrain : e.drain = e := by
            rw [FECEncoder.drain, ← hout]
          obtain ⟨e', hhandle, hfits, hinv⟩ := hlink.inv.send (by
            rw [BridgeState.view, hqueue, onLink_cons_self rfl])
          rw [BridgeState.view, hdrain] at hhandle
          simp only [SharedQueue.tryPop, hqueue, readAt_eq_ok.mpr hlink.encoder, ok_bind, hhandle]
          have hself : (s.encoders.set m.enc e')[m.enc]? = some e' :=
            List.getElem?_set_self (List.getElem?_eq_some_iff.mp hlink.encoder).1
          refine ⟨_, rfl, ?_, ?_, h.air, h.packets, h.inqueue, h.decoding,
            h.forall_link hg ⟨e', d, ms, ?_⟩ ?_⟩
          · exact fun m' hm' ↦ h.queued m' (hqueue ▸ List.mem_cons_of_mem _ hm')
          · intro m' hm'
            obtain rfl := Option.some.inj hm'
            exact ⟨hlt, hport⟩
          · refine ⟨hself, hlink.decoder, hfits, fun hne ↦ absurd rfl hne, hlink.decoding,
              hlink.finished, ?_⟩
            rw [BridgeState.view, hout, List.map_nil, List.append_nil] at hinv
            rw [BridgeState.view, ← List.append_assoc]
            exact hinv
          · intro j hji
            refine ⟨List.getElem?_set_ne (Ne.symm hji), rfl, fun _ ↦ hnone j, id, fun e d ms ↦ ?_⟩
            rw [BridgeState.view, BridgeState.view, hqueue, onLink_cons_ne (Ne.symm hji)]

/-- A packet of a link fits into a frame. -/
theorem send_block {g : Section} (hg : g ∈ b.links) {block : FECBlock}
    (hlen : block.pktLength ≤ (b.link g hg).blocksize + 4) (pad2 now : UInt8) (m : Message) :
    b.socket.send pad2 now block.packet m.port m.opts.linkType m.opts.dataRate =
      .ok (some (b.socket.radiotapHeader pad2 m.opts.dataRate ++
        (RawSendSocket.ieeeHeader now m.opts.linkType).set 4
          (RawSendSocket.portByte b.socket.ground m.port) ++ block.packet)) := by
  refine RawSendSocket.send_eq ?_
  have hmtu : (b.link g hg).blocksize + 30 = b.socket.mtu := (b.link g hg).blocksize_eq
  have hpacket : block.packet.length ≤ block.pktLength := List.length_take_le _ _
  rcases RawSendSocket.length_ieeeHeader now m.opts.linkType with h | h <;> omega

/-- The next block of the encoder is sent. -/
theorem transmit (h : Inv b reads written pkts s) (pad2 now : UInt8)
    (hsmooth : (b.bridge l).Smooth s (.transmit pad2 now)) :
    ∃ pkts' s', (b.bridge l).transmit s pad2 now = .ok s' ∧ Inv b reads written pkts' s' := by
  rw [Bridge.transmit]
  cases hsending : s.sending with
  | none => exact ⟨pkts, s, rfl, h⟩
  | some m =>
      obtain ⟨hlt, hport⟩ := h.sending m hsending
      obtain ⟨g, hg⟩ := exists_section hlt
      obtain ⟨e, d, ms, hlink⟩ := h.link m.enc g hg
      have hidle : ∀ j, j ≠ m.enc → s.sending.map Message.enc ≠ some j := by
        intro j hji
        rw [hsending]
        exact fun heq ↦ hji (Option.some.inj heq).symm
      simp only [readAt_eq_ok.mpr hlink.encoder, ok_bind]
      cases hout : e.outBlocks with
      | nil =>
          have hget : e.getBlock = (none, e) := by rw [FECEncoder.getBlock, hout]
          rw [hget]
          refine ⟨pkts, _, rfl, h.queued, by simp, h.air, h.packets, h.inqueue, h.decoding,
            fun j g' hj ↦ ?_⟩
          obtain ⟨e₂, d₂, ms₂, hlink₂⟩ := h.link j g' hj
          have hout₂ : e₂.outBlocks = [] := by
            by_cases hji : j = m.enc
            · subst hji
              rwa [Option.some.inj (hlink₂.encoder.symm.trans hlink.encoder)]
            · exact hlink₂.sending (hidle j hji)
          exact ⟨e₂, d₂, ms₂, hlink₂.encoder, hlink₂.decoder, hlink₂.fits, fun _ ↦ hout₂,
            hlink₂.decoding, hlink₂.finished, hlink₂.inv⟩
      | cons block rest =>
          have hget : e.getBlock = (some block, { e with outBlocks := rest }) := by
            rw [FECEncoder.getBlock, hout]
          have hnot := hsmooth m hsending e hlink.encoder block (by rw [hget]; rfl)
          obtain ⟨hne, hlen⟩ := hlink.fits block (hout ▸ List.mem_cons_self)
          rw [hget] at hnot ⊢
          have hsend := send_block (List.mem_of_getElem? hg) hlen pad2 now m
          simp only [if_neg hnot]
          simp only [BridgeConfig.bridge, hsend, ok_bind, Option.toList_some, List.map_cons,
            List.map_nil, List.append_assoc, List.drop_left]
          have hself : (s.encoders.set m.enc { e with outBlocks := rest })[m.enc]? =
              some { e with outBlocks := rest } :=
            List.getElem?_set_self (List.getElem?_eq_some_iff.mp hlink.encoder).1
          refine ⟨pkts ++ [(m.enc, block.packet)], _, rfl, h.queued, hsending ▸ h.sending, ?_, ?_,
            h.inqueue, h.decoding, h.forall_link hg ⟨{ e with outBlocks := rest }, d, ms, ?_⟩ ?_⟩
          · exact List.rel_append h.air (.cons ⟨now, m.opts.linkType, by rw [hport]⟩ .nil)
          · intro p hp
            rcases List.mem_append.mp hp with hp | hp
            · exact h.packets p hp
            · rw [List.mem_singleton.mp hp]
              exact ⟨hlt, hne⟩
          · refine ⟨hself, hlink.decoder, ?_, fun hidle' ↦ absurd rfl hidle', hlink.decoding,
              hlink.finished, ?_⟩
            · exact fun block' hb ↦ hlink.fits block' (hout ▸ List.mem_cons_of_mem _ hb)
            · have hinv := hlink.inv
              have hpkts : onLink Prod.fst Prod.snd m.enc (pkts ++ [(m.enc, block.packet)]) =
                  onLink Prod.fst Prod.snd m.enc pkts ++ [block.packet] := onLink_concat_self rfl
              rw [BridgeState.view, hout, List.map_cons] at hinv
              rw [BridgeState.view, hpkts, List.append_assoc, List.singleton_append]
              exact hinv
          · intro j hji
            have hpkts : onLink Prod.fst Prod.snd j (pkts ++ [(m.enc, block.packet)]) =
                onLink Prod.fst Prod.snd j pkts := onLink_concat_ne (Ne.symm hji)
            refine ⟨List.getElem?_set_ne (Ne.symm hji), rfl, fun _ ↦ hidle j hji, id,
              fun e d ms ↦ ?_⟩
            rw [BridgeState.view, BridgeState.view, hpkts]

/-- The next frame is captured by the other side. -/
theorem receive (h : Inv b reads written pkts s) (rt fcs : List UInt8) (curTime : ℕ)
    (hsmooth : (b.bridge l).Smooth s (.receive rt fcs curTime)) :
    ∃ pkts' s', (b.bridge l).receive s rt fcs curTime = .ok s' ∧ Inv b reads written pkts' s' := by
  obtain ⟨hroom, hrt, hfcs, hlen⟩ := hsmooth
  rw [Bridge.receive]
  cases hair : s.air with
  | nil => exact ⟨pkts, s, rfl, h⟩
  | cons frame air =>
      have hframes := h.air
      rw [hair] at hframes
      obtain ⟨p, pkts, hframe, hrest, rfl⟩ := List.forall₂_cons_left_iff.mp hframes
      obtain ⟨now, type, rfl⟩ := hframe
      obtain ⟨hlt, hne⟩ := h.packets p List.mem_cons_self
      have hport : (UInt8.ofNat p.1).toNat = p.1 :=
        UInt8.toNat_ofNat_of_lt' ((hlt.trans_le BridgeConfig.links_length_le).trans (by decide))
      obtain ⟨hfilter, -, m, hreceive, hdata, hmport⟩ :=
        RawReceiveSocket.receive_frame b.socket.ground now type curTime
          (by rw [hport]; exact hlt.trans_le BridgeConfig.links_length_le) hrt hfcs
          (List.append_assoc rt _ fcs) (hlen _ (by rw [hair]; rfl))
      rw [hport] at hmport
      have hdata' : m.data.isEmpty = false := by
        rw [hdata]
        exact List.isEmpty_eq_false_iff.mpr hne
      simp only [BridgeConfig.bridge, if_pos hfilter, hreceive, ok_bind, hdata', Bool.false_eq_true,
        if_false, SharedQueue.push_of_lt hroom]
      refine ⟨pkts, _, rfl, h.queued, h.sending, hrest,
        fun p' hp ↦ h.packets p' (List.mem_cons_of_mem _ hp), ?_, h.decoding, fun j g hj ↦ ?_⟩
      · intro m' hm'
        rcases List.mem_append.mp hm' with hm' | hm'
        · exact h.inqueue m' hm'
        · rw [List.mem_singleton.mp hm', hmport]
          exact hlt
      · obtain ⟨e, d, ms, hlink⟩ := h.link j g hj
        refine ⟨e, d, ms, hlink.frame ⟨rfl, rfl, id, id, fun e d ms ↦ ?_⟩⟩
        -- the packet moves from the air to the queue
        rw [BridgeState.view, BridgeState.view]
        congr 1
        by_cases hjp : p.1 = j
        · rw [onLink_concat_self (hmport.trans hjp), onLink_cons_self hjp, hdata, List.append_assoc,
            List.singleton_append, List.cons_append]
        · rw [onLink_concat_ne (hmport ▸ hjp), onLink_cons_ne hjp]

/-- The next message goes into its decoder. -/
theorem decode (h : Inv b reads written pkts s) :
    ∃ s', Bridge.decode s = .ok s' ∧ Inv b reads written pkts s' := by
  rw [Bridge.decode]
  cases hdecoding : s.decoding with
  | some i => exact ⟨s, rfl, h⟩
  | none =>
      cases hqueue : s.inqueue.queue with
      | nil =>
          simp only [SharedQueue.tryPop, hqueue]
          exact ⟨s, rfl, h⟩
      | cons m rest =>
          have hlt := h.inqueue m (hqueue ▸ List.mem_cons_self)
          have hidx : decoderIdx m = some m.port := by
            have hu : u8 m.port = m.port :=
              u8_of_lt ((hlt.trans_le BridgeConfig.links_length_le).trans (by decide))
            rw [decoderIdx, hu, if_neg (Nat.not_le.mpr (hlt.trans_le BridgeConfig.links_length_le))]
          obtain ⟨g, hg⟩ := exists_section hlt
          obtain ⟨e, d, ms, hlink⟩ := h.link m.port g hg
          have hnone : ∀ j, s.decoding ≠ some j := by
            intro j
            rw [hdecoding]
            exact Option.some_ne_none j ∘ Eq.symm
          have hout : d.outBlocks = [] := hlink.decoding (hnone _)
          have hdrain : d.drain = d := by
            rw [FECDecoder.drain, ← hout]
          obtain rfl : ms = [] := by
            have hfinished := hlink.finished
            rw [hout] at hfinished
            exact (Except.ok.inj hfinished).symm
          obtain ⟨out, d', ms, hdeliver, hfinished, hinv⟩ := hlink.inv.decode (by
            rw [BridgeState.view, hqueue, onLink_cons_self rfl, List.cons_append])
          rw [BridgeState.view, hdrain, FECDecoder.deliver] at hdeliver
          obtain ⟨d₁, hadd, hd₁⟩ := bind_eq_ok.mp hdeliver
          obtain ⟨rfl, rfl⟩ := Prod.mk.inj (Except.ok.inj hd₁)
          simp only [SharedQueue.tryPop, hqueue, hidx, readAt_eq_ok.mpr hlink.decoder, ok_bind,
            hadd]
          have hself : (s.decoders.set m.port d₁)[m.port]? = some d₁ :=
            List.getElem?_set_self (List.getElem?_eq_some_iff.mp hlink.decoder).1
          refine ⟨_, rfl, h.queued, h.sending, h.air, h.packets, ?_, ?_,
            h.forall_link hg ⟨e, d₁, ms, ?_⟩ ?_⟩
          · exact fun m' hm' ↦ h.inqueue m' (hqueue ▸ List.mem_cons_of_mem _ hm')
          · intro i hi
            obtain rfl := Option.some.inj hi
            exact hlt
          · refine ⟨hlink.encoder, hself, hlink.fits, hlink.sending, fun hne ↦ absurd rfl hne,
              hfinished, ?_⟩
            rw [BridgeState.view, List.append_nil] at hinv
            exact hinv
          · intro j hji
            refine ⟨rfl, List.getElem?_set_ne (Ne.symm hji), id, fun _ ↦ hnone j, fun e d ms ↦ ?_⟩
            rw [BridgeState.view, BridgeState.view, hqueue, onLink_cons_ne (Ne.symm hji)]

/-- The next block of the decoder is passed on. -/
theorem finish (h : Inv b reads written pkts s) (hroom : s.sendQueue.size < s.sendQueue.maxSize) :
    ∃ s', Bridge.finish s = .ok s' ∧ Inv b reads written pkts s' := by
  rw [Bridge.finish]
  cases hdecoding : s.decoding with
  | none => exact ⟨s, rfl, h⟩
  | some i =>
      have hlt := h.decoding i hdecoding
      obtain ⟨g, hg⟩ := exists_section hlt
      obtain ⟨e, d, ms, hlink⟩ := h.link i g hg
      have hidle : ∀ j, j ≠ i → s.decoding ≠ some j := by
        intro j hji
        rw [hdecoding]
        exact fun heq ↦ hji (Option.some.inj heq).symm
      simp only [readAt_eq_ok.mpr hlink.decoder, ok_bind]
      cases hout : d.outBlocks with
      | nil =>
          have hget : d.getBlock = (none, d) := by rw [FECDecoder.getBlock, hout]
          rw [hget]
          refine ⟨_, rfl, h.queued, h.sending, h.air, h.packets, h.inqueue, by simp,
            fun j g' hj ↦ ?_⟩
          obtain ⟨e₂, d₂, ms₂, hlink₂⟩ := h.link j g' hj
          have hout₂ : d₂.outBlocks = [] := by
            by_cases hji : j = i
            · subst hji
              rwa [Option.some.inj (hlink₂.decoder.symm.trans hlink.decoder)]
            · exact hlink₂.decoding (hidle j hji)
          exact ⟨e₂, d₂, ms₂, hlink₂.encoder, hlink₂.decoder, hlink₂.fits, hlink₂.sending,
            fun _ ↦ hout₂, hlink₂.finished, hlink₂.inv⟩
      | cons block rest =>
          have hget : d.getBlock = (some block.1, { d with outBlocks := rest }) := by
            rw [FECDecoder.getBlock, hout]
          have hself : (s.decoders.set i { d with outBlocks := rest })[i]? =
              some { d with outBlocks := rest } :=
            List.getElem?_set_self (List.getElem?_eq_some_iff.mp hlink.decoder).1
          have hfinished := hlink.finished
          rw [hout] at hfinished
          rw [hget]
          by_cases hlength : 0 < block.1.length
          · obtain ⟨pkt, ms, hpayload, hrest, rfl⟩ := finished_cons_of_pos hlength hfinished
            simp only [if_pos hlength, hpayload, SharedQueue.push_of_lt hroom]
            refine ⟨_, rfl, h.queued, h.sending, h.air, h.packets, h.inqueue,
              hdecoding ▸ h.decoding, h.forall_link hg ⟨e, { d with outBlocks := rest }, ms, ?_⟩ ?_⟩
            · refine ⟨hlink.encoder, hself, hlink.fits, hlink.sending, fun hne ↦ absurd rfl hne,
                hrest, ?_⟩
              have hpkt : onLink Prod.fst Prod.snd i (s.sendQueue.queue ++ [(i, pkt)]) =
                  onLink Prod.fst Prod.snd i s.sendQueue.queue ++ [pkt] := onLink_concat_self rfl
              have hinv := hlink.inv
              rw [BridgeState.view] at hinv
              rw [BridgeState.view, hpkt, List.append_assoc, List.singleton_append]
              exact hinv
            · intro j hji
              have hpkt : onLink Prod.fst Prod.snd j (s.sendQueue.queue ++ [(i, pkt)]) =
                  onLink Prod.fst Prod.snd j s.sendQueue.queue := onLink_concat_ne (Ne.symm hji)
              refine ⟨rfl, List.getElem?_set_ne (Ne.symm hji), id, fun _ ↦ hidle j hji,
                fun e d ms ↦ ?_⟩
              rw [BridgeState.view, BridgeState.view, hpkt]
          · simp only [if_neg hlength]
            refine ⟨_, rfl, h.queued, h.sending, h.air, h.packets, h.inqueue,
              hdecoding ▸ h.decoding, h.forall_link hg ⟨e, { d with outBlocks := rest }, ms, ?_⟩ ?_⟩
            · exact ⟨hlink.encoder, hself, hlink.fits, hlink.sending, fun hne ↦ absurd rfl hne,
                finished_cons_of_not_pos hlength hfinished, hlink.inv⟩
            · intro j hji
              exact ⟨rfl, List.getElem?_set_ne (Ne.symm hji), id, fun _ ↦ hidle j hji,
                fun e d ms ↦ rfl⟩

/-- The next packet is written. -/
theorem write (h : Inv b reads written pkts s) :
    Inv b reads (written ++ (Bridge.write s).1.toList) pkts (Bridge.write s).2 := by
  rw [Bridge.write, SharedQueue.tryPop]
  cases hqueue : s.sendQueue.queue with
  | nil =>
      rw [Option.toList_none, List.append_nil]
      exact h
  | cons p rest =>
      rw [Option.toList_some]
      refine ⟨h.queued, h.sending, h.air, h.packets, h.inqueue, h.decoding, fun j g hj ↦ ?_⟩
      obtain ⟨e, d, ms, hlink⟩ := h.link j g hj
      have hinv := hlink.inv
      refine ⟨e, d, ms, hlink.encoder, hlink.decoder, hlink.fits, hlink.sending, hlink.decoding,
        hlink.finished, ?_⟩
      by_cases hji : p.1 = j
      · rw [onLink_concat_self hji]
        exact hinv.write (by rw [BridgeState.view, hqueue, onLink_cons_self hji, List.cons_append])
      · rw [onLink_concat_ne hji]
        rw [BridgeState.view, hqueue, onLink_cons_ne hji] at hinv
        exact hinv

/-- A step in which nothing is read and nothing is written. -/
theorem silent {x : Except Fault BridgeState} {s' : BridgeState} (hx : x = .ok s')
    (h : Inv b reads written pkts s') :
    ∃ out t pkts', (do .ok (none, ← x) : Except Fault (Option (ℕ × List UInt8) × BridgeState)) =
      .ok (out, t) ∧ Inv b (reads ++ []) (written ++ out.toList) pkts' t := by
  refine ⟨none, s', pkts, by rw [hx]; rfl, ?_⟩
  rw [Option.toList_none, List.append_nil, List.append_nil]
  exact h

/-- Every step keeps the invariant. -/
theorem step (h : Inv b reads written pkts s) (hl : l.Configured b.blocksize b.links) {op : Op}
    (hfit : ∀ pkt hne, op = .read pkt hne → pkt.length + 2 ≤ b.blocksize)
    (hsmooth : (b.bridge l).Smooth s op) :
    ∃ out s' pkts', (b.bridge l).step s op = .ok (out, s') ∧
      Inv b (reads ++ Bridge.reads [op]) (written ++ out.toList) pkts' s' := by
  cases op with
  | read pkt hne =>
      refine ⟨none, _, pkts, rfl, ?_⟩
      rw [Option.toList_none, List.append_nil]
      exact h.read hl hne (hfit pkt hne rfl) hsmooth
  | flush ipPort =>
      obtain ⟨s', hflush, h'⟩ := h.flush hl ipPort hsmooth
      exact silent hflush h'
  | take =>
      obtain ⟨s', htake, h'⟩ := h.take
      exact silent htake h'
  | transmit pad2 now =>
      obtain ⟨pkts', s', htransmit, h'⟩ := h.transmit pad2 now hsmooth
      exact silent htransmit h'
  | receive rt fcs curTime =>
      obtain ⟨pkts', s', hreceive, h'⟩ := h.receive rt fcs curTime hsmooth
      exact silent hreceive h'
  | decode =>
      obtain ⟨s', hdecode, h'⟩ := h.decode
      exact silent hdecode h'
  | finish =>
      obtain ⟨s', hfinish, h'⟩ := h.finish hsmooth
      exact silent hfinish h'
  | write =>
      refine ⟨_, _, pkts, rfl, ?_⟩
      change Inv b (reads ++ []) _ _ _
      rw [List.append_nil]
      exact h.write

/-- When the threads have nothing left to do, each link has delivered its packets. -/
theorem done (h : Inv b reads written pkts s) (hs : Drained s) {i : ℕ} {g : Section}
    (hg : b.links[i]? = some g) : onLink Prod.fst Prod.snd i written = b.readsOf g reads := by
  obtain ⟨e, d, ms, hlink⟩ := h.link i g hg
  have hpkts : pkts = [] := by
    have hair := h.air
    rw [hs.air] at hair
    exact List.forall₂_nil_left_iff.mp hair
  have hout : e.outBlocks = [] := hlink.sending (by simp [hs.sending])
  have hms : ms = [] := by
    have hfinished := hlink.finished
    rw [hlink.decoding (by simp [hs.decoding])] at hfinished
    exact (Except.ok.inj hfinished).symm
  refine hlink.inv.done ?_ ?_ ?_ ?_
  · rw [BridgeState.view, hs.outqueue, onLink_nil]
  · exact hs.encoders e (List.mem_of_getElem? hlink.encoder)
  · rw [BridgeState.view, hs.inqueue, hpkts, hout, onLink_nil, onLink_nil, List.map_nil]
    rfl
  · rw [BridgeState.view, hs.sendQueue, hms, onLink_nil]
    rfl

end Bridge.Inv

/-! ## Whole runs -/

namespace BridgeConfig

variable (b : BridgeConfig)

/-- `main` sets up the links, and the threads run. -/
def run (ops : List Bridge.Op) : Except Fault (List (Option (ℕ × List UInt8)) × BridgeState) := do
  let l ← Links.configure b.blocksize b.sections
  Run.run (b.bridge l).step (b.start l) ops

/-- Every step of a run is smooth. -/
def Smooth (ops : List Bridge.Op) : Prop :=
  ∀ l, Links.configure b.blocksize b.sections = .ok l →
    Run.Along (b.bridge l).step (b.bridge l).Smooth (b.start l) ops

instance (ops : List Bridge.Op) : Decidable (b.Smooth ops) :=
  match h : Links.configure b.blocksize b.sections with
  | .error _ => isTrue fun l hl ↦ by rw [h] at hl; cases hl
  | .ok l => decidable_of_iff (Run.Along (b.bridge l).step (b.bridge l).Smooth (b.start l) ops)
      ⟨fun hl l' h' ↦ by rw [h] at h'; cases h'; exact hl, fun hs ↦ hs l h⟩

/-- After the links have been flushed, what was written is, link by link, what was read. -/
theorem delivers (ops : List Bridge.Op)
    (hfit : ∀ pkt hne, .read pkt hne ∈ ops → pkt.length + 2 ≤ b.blocksize)
    (hsmooth : b.Smooth ops) :
    ∃ outs s, b.run ops = .ok (outs, s) ∧
      (Bridge.Drained s → ∀ (i : ℕ) (g : Section), b.links[i]? = some g →
        Bridge.written i outs = b.readsOf g (Bridge.reads ops)) := by
  rcases (Links.Configured.empty b.blocksize).foldlM (Nat.zero_le _) b.sections with
    ⟨-, l, hconf, hl⟩ | ⟨hlt, -⟩
  · rw [List.nil_append] at hl
    obtain ⟨outs, s, hrun, pkts, h⟩ := Run.run_inv_of_along (hsmooth l hconf)
      (fun pre outs s ↦ ∃ pkts, Bridge.Inv b (Bridge.reads pre) outs.reduceOption pkts s)
      ⟨[], Bridge.Inv.init hl⟩ (by
        rintro pre op outs s ⟨post, hpost⟩ ⟨pkts, h⟩ hop
        obtain ⟨out, s', pkts', hstep, h'⟩ := h.step hl
          (fun pkt hne hop ↦ hfit pkt hne (by rw [← hpost, ← hop]; simp)) hop
        have houts : (outs ++ [out]).reduceOption = outs.reduceOption ++ out.toList := by
          rw [List.reduceOption_append]
          cases out <;> rfl
        refine ⟨out, s', hstep, pkts', ?_⟩
        rw [houts, Bridge.reads, List.filterMap_append]
        exact h')
    refine ⟨outs, s, ?_, fun hs i g hg ↦ h.done hs hg⟩
    rw [run, Links.configure, hconf]
    exact hrun
  · rw [List.length_nil, Nat.zero_add] at hlt
    exact absurd b.length_le (Nat.not_le.mpr hlt)

/-- The default link without FEC, and a link with two data blocks and an FEC block. -/
def twoLinks : BridgeConfig where
  sections := [{ group := "link-a" }, { group := "link-b", blocks := 2, fec := 1, ip_port := 7 }]
  socket := { ground := true, mtu := 60 }
  maxQueueSize := 10

/-- A UDP packet to port 7. -/
def udpPacket : List UInt8 :=
  [0, 0, 0, 0, 0, 0, 0, 0, 0, 0x11, 0, 0, 0, 0, 0, 0, 0, 0, 0, 0, 0, 0, 0, 7]

/-- The packet of the second link waits in the encoder and is flushed,
while the first link goes on. -/
def twoLinksRun : List Bridge.Op :=
  [.read udpPacket (by decide), .read [1, 2, 3] (by decide), .take, .transmit 0 0, .flush 7, .take,
    .transmit 0 0, .transmit 0 0, .take, .transmit 0 0,
    .receive [0, 0, 8, 0, 0, 0, 0, 0] [0, 0, 0, 0] 0, .transmit 0 0, .transmit 0 0,
    .decode, .finish, .finish,
    .receive [0, 0, 8, 0, 0, 0, 0, 0] [0, 0, 0, 0] 0, .decode, .finish, .finish,
    .receive [0, 0, 8, 0, 0, 0, 0, 0] [0, 0, 0, 0] 0, .decode, .finish, .finish,
    .write, .write]

/-- Both packets arrive. -/
theorem delivers_twoLinks : twoLinks.Smooth twoLinksRun ∧
    ∃ outs s, twoLinks.run twoLinksRun = .ok (outs, s) ∧ Bridge.Drained s ∧
      Bridge.written 0 outs = [[1, 2, 3]] ∧ Bridge.written 1 outs = [udpPacket] := by
  have hsmooth : twoLinks.Smooth twoLinksRun := by decide +kernel
  have hfit : ∀ pkt hne, .read pkt hne ∈ twoLinksRun → pkt.length + 2 ≤ twoLinks.blocksize := by
    intro pkt hne hmem
    have hpkt : pkt = udpPacket ∨ pkt = [1, 2, 3] := by simpa [twoLinksRun] using hmem
    rcases hpkt with rfl | rfl <;> decide
  have hdrained : (twoLinks.run twoLinksRun).toOption.all (fun r ↦ decide (Bridge.Drained r.2)) =
      true := by decide +kernel
  obtain ⟨outs, s, hrun, hdone⟩ := delivers twoLinks twoLinksRun hfit hsmooth
  rw [hrun] at hdrained
  have hs : Bridge.Drained s := of_decide_eq_true hdrained
  exact ⟨hsmooth, outs, s, hrun, hs, (hdone hs 0 _ rfl).trans (by decide),
    (hdone hs 1 _ rfl).trans (by decide)⟩

end BridgeConfig

end WfbBridge
