import Mathlib
import WfbBridge.Encoder.Plain
import WfbBridge.Radio.Send

/-!
# The encoder of a link

`main` sets the block size of every encoder, and the MTU of the TUN device, to what is left
of the MTU of the radio without the two headers.  A link has its FEC off when one of its
two numbers of blocks is 0; its encoder then outputs every block at once, with the size
it was allocated with.
-/

namespace WfbBridge

open Checked

/-- `RAW_SOCKET_OVERHEAD`: the longest 802.11 header. -/
def rawSocketOverhead : ℕ := 24

/-- A link: FEC is off, or the numbers of blocks are in the limits of the code.  A packet has
more than two bytes to go. -/
structure Link where
  mtu : ℕ
  nblocks : ℕ
  nfecBlocks : ℕ
  mtu_gt : 32 < mtu := by decide
  mtu_lt : mtu < 65536 := by decide
  valid : nblocks = 0 ∨ nfecBlocks = 0 ∨ nblocks ≤ 128 ∧ nfecBlocks ≤ 128 := by decide

namespace Link

variable (l : Link)

/-- `blocksize`. -/
def blocksize : ℕ := l.mtu - fecOverhead - rawSocketOverhead

/-- The encoder. -/
def encoder : FECEncoder := FECEncoder.new l.nblocks l.nfecBlocks l.blocksize

/-- FEC is not performed on this link. -/
def FecOff : Prop := l.nblocks = 0 ∨ l.nfecBlocks = 0

instance : Decidable l.FecOff := inferInstanceAs (Decidable (_ ∨ _))

theorem blocksize_eq : l.blocksize + 30 = l.mtu := by
  have := l.mtu_gt
  simp only [blocksize, fecOverhead, rawSocketOverhead]
  omega

theorem two_lt_blocksize : 2 < l.blocksize := by
  have := l.mtu_gt
  have := l.blocksize_eq
  omega

theorem blocksize_le : l.blocksize ≤ 65531 := by
  have := l.mtu_lt
  have := l.blocksize_eq
  omega

variable {l}

/-- The parameters of a link with FEC. -/
def params (h : ¬l.FecOff) : FecParams where
  numBlocks := l.nblocks
  numFecBlocks := l.nfecBlocks
  maxBlockSize := l.blocksize
  numBlocks_pos := Nat.pos_of_ne_zero fun h0 ↦ h (.inl h0)
  numBlocks_le := by
    have := l.valid
    simp only [FecOff] at h
    omega
  numFecBlocks_pos := Nat.pos_of_ne_zero fun h0 ↦ h (.inr h0)
  numFecBlocks_le := by
    have := l.valid
    simp only [FecOff] at h
    omega
  two_le_maxBlockSize := l.two_lt_blocksize.le
  maxBlockSize_le := l.blocksize_le

end Link

/-! ## Without FEC -/

/-- The block of a message on a link without FEC. -/
def Link.PlainBlock (l : Link) (b : FECBlock) (msg : List UInt8) : Prop :=
  ∃ seqNum, b = { l.encoder with seqNum }.filledBlock 0 msg

/-- An encoder without FEC, after the messages `msgs`. -/
structure FECEncoder.Plain (l : Link) (e : FECEncoder) (emitted : List FECBlock)
    (msgs : List (List UInt8)) : Prop where
  numBlocks : e.numBlocks = l.nblocks
  numFecBlocks : e.numFecBlocks = l.nfecBlocks
  maxBlockSize : e.maxBlockSize = l.blocksize
  inBlocks : e.inBlocks = []
  emitted : List.Forall₂ l.PlainBlock emitted msgs

namespace FECEncoder.Plain

variable {l : Link} {e : FECEncoder} {returned : List FECBlock} {msgs : List (List UInt8)}

theorem init : l.encoder.Plain l [] [] := ⟨rfl, rfl, rfl, rfl, .nil⟩

theorem plainBlock (h : e.Plain l (returned ++ e.outBlocks) msgs) (msg : List UInt8) :
    l.PlainBlock (e.filledBlock 0 msg) msg := by
  refine ⟨e.seqNum, FECBlock.ext ?_ ?_⟩
  · simp only [filledBlock, h.numBlocks, h.numFecBlocks, h.maxBlockSize]
    rfl
  · simp only [filledBlock, h.maxBlockSize]
    rfl

/-- A message goes out at once. -/
theorem push (hoff : l.FecOff) (h : e.Plain l (returned ++ e.outBlocks) msgs) {msg : List UInt8}
    (hmsg : msg.length + 2 ≤ l.blocksize) :
    ∃ e', e.push msg = .ok e' ∧ e'.Plain l (returned ++ e'.outBlocks) (msgs ++ [msg]) := by
  have hle : e.maxBlockSize ≤ 65531 := by rw [h.maxBlockSize]; exact l.blocksize_le
  rw [← h.maxBlockSize] at hmsg
  have hoff' : e.numBlocks = 0 ∨ e.numFecBlocks = 0 := by
    rw [h.numBlocks, h.numFecBlocks]
    exact hoff
  refine ⟨_, push_plain hoff' h.inBlocks hle hmsg, h.numBlocks, h.numFecBlocks, h.maxBlockSize,
    h.inBlocks, ?_⟩
  rw [← List.append_assoc]
  exact List.rel_append h.emitted (.cons (h.plainBlock msg) .nil)

/-- There is nothing to flush. -/
theorem flush (h : e.Plain l (returned ++ e.outBlocks) msgs) : e.flush = .ok e :=
  flush_plain h.inBlocks

theorem get (h : e.Plain l (returned ++ e.outBlocks) msgs) :
    e.getBlock.2.Plain l (returned ++ (e.getBlock.1.toList ++ e.getBlock.2.outBlocks)) msgs := by
  rw [FECEncoder.getBlock]
  cases hout : e.outBlocks with
  | nil =>
      rw [hout] at h
      exact ⟨h.numBlocks, h.numFecBlocks, h.maxBlockSize,
        h.inBlocks, by simpa [hout] using h.emitted⟩
  | cons blk rest =>
      rw [hout] at h
      exact ⟨h.numBlocks, h.numFecBlocks, h.maxBlockSize, h.inBlocks, h.emitted⟩

theorem step (hoff : l.FecOff) {op : FECEncoder.Op}
    (h : e.Plain l (returned ++ e.outBlocks) msgs)
    (hmsg : ∀ m ∈ messages [op], m.length + 2 ≤ l.blocksize) :
    ∃ out e', e.step op = .ok (out, e') ∧
      e'.Plain l (returned ++ out ++ e'.outBlocks) (msgs ++ messages [op]) := by
  cases op with
  | push msg =>
      obtain ⟨e', hpush, h'⟩ := h.push hoff (hmsg msg List.mem_cons_self)
      refine ⟨[], e', ?_, ?_⟩
      · rw [FECEncoder.step, hpush, ok_bind]
      · rwa [List.append_nil]
  | flush =>
      refine ⟨[], e, ?_, ?_⟩
      · rw [FECEncoder.step, h.flush, ok_bind]
      · rw [List.append_nil]
        exact (List.append_nil msgs).symm ▸ h
  | get =>
      refine ⟨_, _, rfl, ?_⟩
      rw [List.append_assoc]
      exact (List.append_nil msgs).symm ▸ h.get

end FECEncoder.Plain

/-- From a new encoder, the messages go out one by one. -/
theorem run_plain {l : Link} (hoff : l.FecOff) {ops : List FECEncoder.Op}
    (hops : ∀ m ∈ messages ops, m.length + 2 ≤ l.blocksize) :
    ∃ outs e, Run.run FECEncoder.step l.encoder ops = .ok (outs, e) ∧
      e.Plain l (outs.flatten ++ e.outBlocks) (messages ops) := by
  refine Run.run_inv FECEncoder.step l.encoder ops
    (fun pre outs e ↦ e.Plain l (outs.flatten ++ e.outBlocks) (messages pre)) .init ?_
  rintro pre op outs e ⟨post, rfl⟩ h
  have hmsg : ∀ m ∈ messages [op], m.length + 2 ≤ l.blocksize := by
    intro m hm
    refine hops m ?_
    rw [← List.singleton_append, ← List.append_assoc]
    refine messages_subset ?_
    rw [messages, List.filterMap_append]
    exact List.mem_append_right _ hm
  obtain ⟨out, e', hstep, h'⟩ := h.step hoff hmsg
  refine ⟨out, e', hstep, ?_⟩
  rw [List.flatten_append, List.flatten_singleton, messages, List.filterMap_append]
  exact h'

/-- The block of a message has the size it was allocated with. -/
theorem Link.PlainBlock.spec {l : Link} {b : FECBlock} {msg : List UInt8} (h : l.PlainBlock b msg)
    (hmsg : msg.length + 2 ≤ l.blocksize) :
    b.payload = some msg ∧ b.pktLength = l.blocksize + 4 ∧ b.data.length = l.blocksize + 4 := by
  obtain ⟨seqNum, rfl⟩ := h
  exact ⟨FECEncoder.filledBlock_payload l.blocksize_le hmsg 0, rfl,
    FECEncoder.length_filledBlock 0 hmsg⟩

theorem Link.PlainBlock.packet {l : Link} {b : FECBlock} {msg : List UInt8} (h : l.PlainBlock b msg)
    (hmsg : msg.length + 2 ≤ l.blocksize) : b.packet = b.data := by
  obtain ⟨-, hlen, hdata⟩ := h.spec hmsg
  exact List.take_of_length_le (hdata.trans hlen.symm).le

/-! ## Messages at the limit -/

namespace Link

/-- The block that `get_next_block` allocates for a message has room for it at `data()`. -/
def RoomFor (e : FECEncoder) : FECEncoder.Op → Prop
  | .push msg => ∃ b, e.getNextBlock msg.length = .ok b ∧ fecOverhead + msg.length ≤ b.data.length
  | _ => True

variable (l : Link)

/-- The blocks that carry messages. -/
def dataBlocks (emitted : List FECBlock) : List FECBlock :=
  if l.FecOff then emitted else emitted.filter fun b ↦ b.isDataBlock

/-- No message is cut or rejected: every one has room in its block, its data packet carries all of
it, and no packet is refused for the MTU. -/
def CarriesAll (ops : List FECEncoder.Op) : Prop :=
  Run.Along FECEncoder.step RoomFor l.encoder ops ∧
  ∃ outs e, Run.run FECEncoder.step l.encoder ops = .ok (outs, e) ∧
    (∀ b ∈ outs.flatten ++ e.outBlocks, ∀ s : RawSendSocket, s.mtu = l.mtu →
      ∀ pad2 now port type datarate, ∃ frame,
        s.send pad2 now b.packet port type datarate = .ok (some frame)) ∧
    List.Forall₂ (fun b msg ↦ b.payload = some msg ∧ fecOverhead + msg.length ≤ b.pktLength)
      (l.dataBlocks (outs.flatten ++ e.outBlocks))
      ((messages ops).take (l.dataBlocks (outs.flatten ++ e.outBlocks)).length)

variable {l}

/-- No packet is refused. -/
theorem send_packet {b : FECBlock} (hb : b.pktLength ≤ l.blocksize + 4) {s : RawSendSocket}
    (hs : s.mtu = l.mtu) (pad2 now port : UInt8) (type : LinkType) (datarate : UInt8) :
    ∃ frame, s.send pad2 now b.packet port type datarate = .ok (some frame) := by
  refine ⟨_, RawSendSocket.send_eq ?_⟩
  have hmtu := l.blocksize_eq
  have hlen : b.packet.length ≤ b.pktLength := List.length_take_le _ _
  rcases RawSendSocket.length_ieeeHeader now type with h | h <;> omega

/-- The data blocks of a sequence carry its messages. -/
theorem dataBlocks_sequence {blocks : List FECBlock} {q : Sequence}
    (h : List.Forall₂ FECBlock.SentAs blocks q.packets) :
    List.Forall₂ (fun b msg ↦ b.payload = some msg ∧ fecOverhead + msg.length ≤ b.pktLength)
      (blocks.filter fun b ↦ b.isDataBlock) q.msgs := by
  have hindex := (List.forall₂_map_right_iff.mp h).imp_mem (S := fun b k ↦
      b.SentAs (q.packet k) ∧ (b.isDataBlock ↔ k < q.nBlocks)) (by
    intro b k hk hsent
    refine ⟨hsent, ?_⟩
    rw [FECBlock.isDataBlock, hsent.header]
    exact Sequence.isDataBlock_block (List.mem_range.mp hk))
  have hfilter : (List.range q.nPackets).filter (fun k ↦ decide (k < q.nBlocks)) =
      List.range q.nBlocks := by
    rw [Sequence.nPackets, List.range_add, List.filter_append, List.filter_eq_self.mpr (by simp),
      List.filter_eq_nil_iff.mpr (by simp), List.append_nil]
  have hdata := List.rel_filter (p := fun b : FECBlock ↦ decide b.isDataBlock)
    (q := fun k ↦ decide (k < q.nBlocks)) (by
      intro b k hbk
      simpa using hbk.2) hindex
  rw [hfilter] at hdata
  rw [← Sequence.map_msg_range, List.forall₂_map_right_iff]
  refine hdata.imp_mem fun b k hk hbk ↦ ?_
  have hfit := q.length_msg_le k
  refine ⟨hbk.1.payload (List.mem_range.mp hk), ?_⟩
  rw [FECBlock.pktLength, hbk.1.dataLength]
  simp only [fecOverhead]
  omega

/-- Messages that fit have room in their blocks. -/
theorem along_roomFor {ops : List FECEncoder.Op}
    (hops : ∀ m ∈ messages ops, m.length + 2 ≤ l.blocksize) :
    Run.Along FECEncoder.step RoomFor l.encoder ops := by
  refine Run.along_of_inv (P := fun _ e ↦ e.maxBlockSize = l.blocksize) rfl ?_ ?_
  · rintro pre op e ⟨post, rfl⟩ he
    cases op with
    | push msg =>
        have hmsg : msg.length + 2 ≤ l.blocksize := hops msg (by simp [messages])
        obtain ⟨b, hb, hlen⟩ := FECEncoder.getNextBlock_ok (he ▸ l.two_lt_blocksize.le)
          (he ▸ l.blocksize_le) msg.length
        exact ⟨b, hb, by rw [hlen, he]; omega⟩
    | flush => trivial
    | get => trivial
  · intro pre op e out e' _ he hstep
    exact (FECEncoder.step_maxBlockSize hstep).trans he

/-- Messages with room in their blocks fit. -/
theorem fits_of_along {e : FECEncoder} {ops : List FECEncoder.Op}
    (he : e.maxBlockSize = l.blocksize) (h : Run.Along FECEncoder.step RoomFor e ops)
    {outs : List (List FECBlock)} {e' : FECEncoder}
    (hrun : Run.run FECEncoder.step e ops = .ok (outs, e')) :
    ∀ m ∈ messages ops, m.length + 2 ≤ l.blocksize := by
  induction ops generalizing e outs with
  | nil => simp [messages]
  | cons op ops ih =>
      obtain ⟨hroom, hrest⟩ := h
      obtain ⟨out, e₁, outs', hstep, hrun', -⟩ := Run.run_cons_eq_ok.mp hrun
      have hmore := ih ((FECEncoder.step_maxBlockSize hstep).trans he) (hrest _ _ hstep) hrun'
      cases op with
      | push msg =>
          intro m hm
          rcases List.mem_cons.mp hm with rfl | hm
          · obtain ⟨b, hb, hlen⟩ := hroom
            obtain ⟨b', hb', hlen'⟩ := FECEncoder.getNextBlock_ok (he ▸ l.two_lt_blocksize.le)
              (he ▸ l.blocksize_le) m.length
            obtain rfl := Except.ok.inj (hb.symm.trans hb')
            have := l.two_lt_blocksize
            rw [hlen', he] at hlen
            omega
          · exact hmore m hm
      | flush => exact hmore
      | get => exact hmore

/-- On a link without FEC every block carries a message. -/
theorem carriesAll_plain (hoff : l.FecOff) {ops : List FECEncoder.Op}
    (hops : ∀ m ∈ messages ops, m.length + 2 ≤ l.blocksize) : l.CarriesAll ops := by
  obtain ⟨outs, e, hrun, h⟩ := run_plain hoff hops
  have hspec := h.emitted.imp_mem fun b msg hmsg hb ↦ hb.spec (hops msg hmsg)
  refine ⟨along_roomFor hops, outs, e, hrun, ?_, ?_⟩
  · exact hspec.forall_mem fun b msg _ hb s hs ↦ send_packet hb.2.1.le hs
  · rw [dataBlocks, if_pos hoff, h.emitted.length_eq, List.take_length]
    refine hspec.imp_mem fun b msg hmsg hb ↦ ⟨hb.1, ?_⟩
    have := hops msg hmsg
    rw [hb.2.1]
    simp only [fecOverhead]
    omega

/-- On a link with FEC the data blocks do. -/
theorem carriesAll_fec (hfec : ¬l.FecOff) {ops : List FECEncoder.Op}
    (hops : ∀ m ∈ messages ops, m.length + 2 ≤ l.blocksize) : l.CarriesAll ops := by
  obtain ⟨outs, e, qs, hrun, h⟩ := run_represents (params hfec) hops
  refine ⟨along_roomFor hops, outs, e, hrun, ?_, ?_⟩
  · refine h.emitted.forall_mem fun b pkt hpkt hb s hs ↦ send_packet ?_ hs
    obtain ⟨q, hq, hpkt⟩ := List.mem_flatMap.mp hpkt
    obtain ⟨k, -, rfl⟩ := List.mem_map.mp hpkt
    obtain ⟨j, hj⟩ := List.mem_iff_getElem?.mp hq
    have hsize : q.size ≤ l.blocksize := (h.isSequence j q hj).size_le
    rw [hb.pktLength, Sequence.length_packet]
    omega
  · -- sequence by sequence
    obtain ⟨seqs, hseqs, hall⟩ := h.emitted.exists_flatten
    have hdata : List.Forall₂ (fun b msg ↦ b.payload = some msg ∧
      fecOverhead + msg.length ≤ b.pktLength)
        (l.dataBlocks (outs.flatten ++ e.outBlocks)) (qs.map Sequence.msgs).flatten := by
      rw [dataBlocks, if_neg hfec, hseqs, List.filter_flatten]
      refine List.rel_flatten ?_
      rw [List.forall₂_map_left_iff, List.forall₂_map_right_iff]
      exact (List.forall₂_map_right_iff.mp hall).imp fun _ _ ↦ dataBlocks_sequence
    have hitems := (batches_spec (params hfec).numBlocks_pos ops).1
    rw [Batches.items, List.flatMap_def, ← h.msgs] at hitems
    rw [hdata.length_eq, ← hitems, List.take_left]
    exact hdata

/-- The messages of a run are all carried if the length field has its two bytes too. -/
theorem carriesAll_iff (l : Link) (ops : List FECEncoder.Op) :
    l.CarriesAll ops ↔ ∀ m ∈ messages ops, m.length ≤ l.blocksize - 2 := by
  have htwo := l.two_lt_blocksize
  have hiff : (∀ m ∈ messages ops, m.length ≤ l.blocksize - 2) ↔
      ∀ m ∈ messages ops, m.length + 2 ≤ l.blocksize :=
    forall₂_congr fun m _ ↦ by omega
  rw [hiff]
  constructor
  · rintro ⟨halong, outs, e, hrun, -⟩
    exact fits_of_along rfl halong hrun
  · by_cases hoff : l.FecOff
    · exact carriesAll_plain hoff
    · exact carriesAll_fec hoff

/-- A message of the full block size, on a link without FEC, does not fit. -/
theorem not_carriesAll_full : ¬({ mtu := 33, nblocks := 0, nfecBlocks := 0 } : Link).CarriesAll
    [.push [1, 2, 3]] := by
  rintro ⟨-, outs, e, hrun, -⟩
  have hfault : Run.run FECEncoder.step
    ({ mtu := 33, nblocks := 0, nfecBlocks := 0 } : Link).encoder
      [.push [1, 2, 3]] = .error .bytes := by decide
  rw [hfault] at hrun
  cases hrun

end Link

end WfbBridge
