import Mathlib
import WfbBridge.Bridge.Channel

/-!
# A link that is too slow

When more is waiting than the queue may hold, `raw_send_thread` drops the blocks that
`is_fec_block` calls redundant.  That is decided from the header alone.  `Link.origins` says
instead what the encoder made each block for, and the two are compared for every block that
the thread comes to, whatever the queue holds at that moment.
-/

namespace WfbBridge

open Checked

/-- What a block was made for: to carry a message, or by `encode_blocks` as redundancy. -/
inductive Origin where
  | message (msg : List UInt8)
  | redundancy
deriving DecidableEq

/-- `raw_send_thread` with a message, as an operation on its encoder. -/
def FECEncoder.Op.ofMessage (msg : List UInt8) : FECEncoder.Op :=
  if msg = [] then .flush else .push msg

/-- The blocks of a link, by what they were made for. -/
def Link.origins (l : Link) (ops : List FECEncoder.Op) : List Origin :=
  if l.FecOff then (messages ops).map .message
  else (batches l.nblocks ops).closed.flatMap fun b ↦
    b.items.map .message ++ List.replicate l.nfecBlocks .redundancy

/-- A block that `raw_send_thread` has come to, and whether it was passed to `send`. -/
structure Transmission where
  enc : ℕ
  block : FECBlock
  sent : Bool
deriving DecidableEq

namespace Bridge

variable (c : Bridge)

/-- The loop over the finished blocks.  When `k` blocks are left, the queue is `outqueue k`. -/
def transmitAll (enc : ℕ) (e : FECEncoder) (outqueue : ℕ → SharedQueue Message) :
    List FECBlock → List Transmission
  | [] => []
  | block :: rest =>
      { enc
        block
        sent := !decide (c.withholds (outqueue rest.length) { e with outBlocks := rest } block) } ::
      transmitAll enc e outqueue rest

/-- A turn of the loop of `raw_send_thread`.  The message without an encoder, with which `main`
wakes the thread up, is skipped. -/
def sendTurn (encoders : List FECEncoder) :
    Option Message × (ℕ → SharedQueue Message) → Except Fault (List Transmission × List FECEncoder)
  | (none, _) => .ok ([], encoders)
  | (some msg, outqueue) => do
      let enc ← readAt .index encoders msg.enc
      let enc ← enc.handle msg.msg
      .ok (c.transmitAll msg.enc enc outqueue enc.outBlocks, encoders.set msg.enc enc.drain)

end Bridge

/-- The operations on the encoder of link `i`. -/
def opsOf {α : Type*} (i : ℕ) (turns : List (Option Message × α)) : List FECEncoder.Op :=
  turns.filterMap fun t ↦ t.1.bind fun msg ↦ if msg.enc = i then some (.ofMessage msg.msg) else none

/-- The messages are for these links, and fit into their blocks. -/
def Fits {α : Type*} (links : List Link) (turns : List (Option Message × α)) : Prop :=
  ∀ t ∈ turns, ∀ msg ∈ t.1, ∃ l, links[msg.enc]? = some l ∧ msg.msg.length + 2 ≤ l.blocksize

/-- What the blocks have to be: those that carry a message are sent. -/
def Origin.Met (t : Transmission) : Origin → Prop
  | .message msg => t.block.payload = some msg ∧ t.sent = true
  | .redundancy => True

/-- No access leaves its block, and only redundancy is withheld. -/
def WithholdsOnlyRedundancy (links : List Link) (c : Bridge)
    (turns : List (Option Message × (ℕ → SharedQueue Message))) : Prop :=
  ∃ outs es, Run.run c.sendTurn (links.map Link.encoder) turns = .ok (outs, es) ∧
    ∀ (i : ℕ) (l : Link), links[i]? = some l →
      List.Forall₂ Origin.Met (outs.flatten.filter (·.enc = i)) (l.origins (opsOf i turns))

/-- Where the number of blocks is 0, the queue holds no more than it may when the block of a message
is tested.  No other block is left then. -/
def Uncongested (links : List Link) (c : Bridge)
    (turns : List (Option Message × (ℕ → SharedQueue Message))) : Prop :=
  ∀ t ∈ turns, ∀ msg ∈ t.1, msg.msg ≠ [] → ∀ l ∈ links[msg.enc]?, u8 l.nblocks = 0 →
    (t.2 0).size ≤ c.maxQueueSize

/-! ## The encoder of one link -/

/-- An encoder after the operations `ops`. -/
inductive FECEncoder.Served (l : Link) (ops : List FECEncoder.Op) (emitted : List FECBlock)
    (e : FECEncoder) : Prop
  | plain (hoff : l.FecOff) (h : e.Plain l emitted (messages ops))
  | fec (hfec : ¬l.FecOff) (qs : List Sequence)
      (h : e.Represents (Link.params hfec) (batches l.nblocks ops) emitted qs)

/-- How a block shows what it was made for. -/
def Origin.ShownBy (l : Link) (b : FECBlock) : Origin → Prop
  | .message msg => b.payload = some msg ∧ (u8 l.nblocks ≠ 0 → b.isDataBlock)
  | .redundancy => True

theorem messages_ofMessage (ops : List FECEncoder.Op) (msg : List UInt8) :
    messages (ops ++ [.ofMessage msg]) = if msg = [] then messages ops
      else messages ops ++ [msg] := by
  rw [messages, List.filterMap_append, FECEncoder.Op.ofMessage]
  by_cases h : msg = []
  · rw [if_pos h, if_pos h]
    exact List.append_nil _
  · rw [if_neg h, if_neg h]
    rfl

namespace FECEncoder.Served

variable {l : Link} {ops : List FECEncoder.Op} {emitted : List FECBlock} {e : FECEncoder}

theorem init (l : Link) : l.encoder.Served l [] [] := by
  by_cases hoff : l.FecOff
  · exact .plain hoff .init
  · exact .fec hoff [] (.init hoff)

/-- A message or a flush. -/
theorem handle (h : e.Served l ops emitted) (hdrained : e.outBlocks = [])
    (hfit : ∀ m ∈ messages ops, m.length + 2 ≤ l.blocksize) {msg : List UInt8}
    (hmsg : msg.length + 2 ≤ l.blocksize) :
    ∃ e', e.handle msg = .ok e' ∧
      e'.drain.Served l (ops ++ [.ofMessage msg]) (emitted ++ e'.outBlocks) := by
  rw [FECEncoder.handle]
  cases h with
  | plain hoff h =>
      by_cases hnil : msg = []
      · rw [if_pos hnil]
        obtain ⟨hflush, h'⟩ := h.flush_drain hdrained
        refine ⟨e, hflush, .plain hoff ?_⟩
        rwa [messages_ofMessage, if_pos hnil]
      · rw [if_neg hnil]
        obtain ⟨e', hpush, h'⟩ := h.push_drain hoff hdrained hmsg
        refine ⟨e', hpush, .plain hoff ?_⟩
        rwa [messages_ofMessage, if_neg hnil]
  | fec hfec qs h =>
      obtain ⟨hitems, hb⟩ := batches_spec (Link.params hfec).numBlocks_pos ops
      by_cases hnil : msg = []
      · rw [if_pos hnil]
        obtain ⟨e', qs', hflush, h'⟩ := h.flush_drain hdrained hb (hitems ▸ hfit)
        refine ⟨e', hflush, .fec hfec qs' ?_⟩
        rwa [batches_concat, FECEncoder.Op.ofMessage, if_pos hnil]
      · rw [if_neg hnil]
        obtain ⟨e', qs', hpush, h'⟩ := h.push_drain hdrained hb (hitems ▸ hfit) hmsg
        refine ⟨e', hpush, .fec hfec qs' ?_⟩
        rwa [batches_concat, FECEncoder.Op.ofMessage, if_neg hnil]

end FECEncoder.Served

/-- The packets of a sequence, by what they were made for. -/
theorem Sequence.map_origin_range (q : Sequence) :
    (List.range q.nPackets).map
        (fun k ↦ if k < q.nBlocks then Origin.message (q.msg k) else .redundancy) =
      q.msgs.map .message ++ List.replicate q.nFecBlocks .redundancy := by
  rw [Sequence.nPackets, List.range_add, List.map_append, List.map_map, ← q.map_msg_range,
    List.map_map]
  congr 1
  · refine List.map_congr_left fun k hk ↦ ?_
    rw [if_pos (List.mem_range.mp hk)]
    rfl
  · refine List.eq_replicate_iff.mpr ⟨by simp, ?_⟩
    intro o ho
    obtain ⟨r, -, rfl⟩ := List.mem_map.mp ho
    exact if_neg (Nat.not_lt.mpr (Nat.le_add_right _ _))

/-- The blocks of a sequence show what they were made for. -/
theorem Sequence.shownBy {l : Link} {q : Sequence} {blocks : List FECBlock}
    (h : List.Forall₂ FECBlock.SentAs blocks q.packets) :
    List.Forall₂ (Origin.ShownBy l) blocks
      (q.msgs.map .message ++ List.replicate q.nFecBlocks .redundancy) := by
  rw [← q.map_origin_range, List.forall₂_map_right_iff]
  refine (List.forall₂_map_right_iff.mp h).imp_mem fun b k hk hb ↦ ?_
  by_cases hlt : k < q.nBlocks
  · rw [if_pos hlt]
    refine ⟨hb.payload hlt, fun _ ↦ ?_⟩
    rw [FECBlock.isDataBlock, hb.header]
    exact (Sequence.isDataBlock_block (List.mem_range.mp hk)).mpr hlt
  · rw [if_neg hlt]
    trivial

/-- The block of a message without FEC is a data block unless the number of blocks is 0. -/
theorem Link.PlainBlock.isDataBlock_iff {l : Link} {b : FECBlock} {msg : List UInt8}
    (h : l.PlainBlock b msg) : b.isDataBlock ↔ u8 l.nblocks ≠ 0 := by
  obtain ⟨seqNum, rfl⟩ := h
  change 0 < (UInt8.ofNat l.nblocks).toNat ↔ _
  rw [UInt8.toNat_ofNat', Nat.pos_iff_ne_zero]
  rfl

namespace FECEncoder.Served

variable {l : Link} {ops : List FECEncoder.Op} {emitted : List FECBlock} {e : FECEncoder}

/-- What the encoder has emitted. -/
theorem shown (h : e.Served l ops emitted) (hfit : ∀ m ∈ messages ops, m.length + 2 ≤ l.blocksize) :
    List.Forall₂ (Origin.ShownBy l) emitted (l.origins ops) := by
  cases h with
  | plain hoff h =>
      rw [Link.origins, if_pos hoff, List.forall₂_map_right_iff]
      refine h.emitted.imp_mem fun b msg hmsg hb ↦ ?_
      exact ⟨(hb.spec (hfit msg hmsg)).1, hb.isDataBlock_iff.mpr⟩
  | fec hfec qs h =>
      have horigins : l.origins ops = (qs.map fun q ↦ q.msgs.map Origin.message ++
          List.replicate q.nFecBlocks .redundancy).flatten := by
        have hclosed : (batches l.nblocks ops).closed.map (fun b ↦
            b.items.map Origin.message ++ List.replicate l.nfecBlocks .redundancy) =
            (qs.map Sequence.msgs).map fun msgs ↦
              msgs.map Origin.message ++ List.replicate l.nfecBlocks .redundancy := by
          rw [h.msgs, List.map_map]
          rfl
        rw [Link.origins, if_neg hfec, List.flatMap_def, hclosed, List.map_map]
        congr 1
        refine List.map_congr_left fun q hq ↦ ?_
        obtain ⟨j, hj⟩ := List.mem_iff_getElem?.mp hq
        rw [(h.isSequence j q hj).nFecBlocks]
        rfl
      obtain ⟨seqs, hseqs, hall⟩ := h.emitted.exists_flatten
      rw [horigins, hseqs]
      refine List.rel_flatten ?_
      rw [List.forall₂_map_right_iff]
      exact (List.forall₂_map_right_iff.mp hall).imp fun _ _ ↦ Sequence.shownBy

end FECEncoder.Served

theorem Link.fecOff_of_u8 {l : Link} (h : u8 l.nblocks = 0) : l.FecOff := by
  rcases l.valid with h0 | h0 | ⟨hle, -⟩
  · exact .inl h0
  · exact .inr h0
  · exact .inl ((u8_of_lt (by omega)).symm.trans h)

/-- Where the number of blocks is 0, a message gives one block, which is taken for redundancy. -/
theorem FECEncoder.Served.outBlocks_of_u8 {l : Link} {ops : List FECEncoder.Op}
    {emitted : List FECBlock} {e e' : FECEncoder} (h : e.Served l ops emitted)
    (h0 : u8 l.nblocks = 0) (hdrained : e.outBlocks = []) {msg : List UInt8}
    (hmsg : msg.length + 2 ≤ l.blocksize) (hhandle : e.handle msg = .ok e') :
    msg = [] ∧ e'.outBlocks = [] ∨ msg ≠ [] ∧ ∃ b, e'.outBlocks = [b] ∧ b.isFecBlock := by
  cases h with
  | fec hfec qs h => exact absurd (Link.fecOff_of_u8 h0) hfec
  | plain hoff h =>
      have hemitted : e.Plain l (emitted ++ e.outBlocks) (messages ops) := by
        rwa [hdrained, List.append_nil]
      rw [FECEncoder.handle] at hhandle
      by_cases hnil : msg = []
      · rw [if_pos hnil, hemitted.flush] at hhandle
        obtain rfl := Except.ok.inj hhandle
        exact .inl ⟨hnil, hdrained⟩
      · have hoff' : e.numBlocks = 0 ∨ e.numFecBlocks = 0 := by
          rw [h.numBlocks, h.numFecBlocks]
          exact hoff
        have hmax := h.maxBlockSize
        rw [if_neg hnil, push_plain hoff' h.inBlocks (hmax ▸ l.blocksize_le) (hmax ▸ hmsg),
          hdrained, List.nil_append] at hhandle
        obtain rfl := Except.ok.inj hhandle
        refine .inr ⟨hnil, _, rfl, fun hdata ↦ ?_⟩
        exact (hemitted.plainBlock msg).isDataBlock_iff.mp hdata h0

/-- A message that the encoder takes fits into its block. -/
theorem Link.fits_of_handle {l : Link} {e e' : FECEncoder} (he : e.maxBlockSize = l.blocksize)
    {msg : List UInt8} (h : e.handle msg = .ok e') :
    msg.length + 2 ≤ l.blocksize ∧ e'.maxBlockSize = l.blocksize := by
  have htwo := l.two_lt_blocksize
  rw [FECEncoder.handle] at h
  by_cases hnil : msg = []
  · rw [if_pos hnil] at h
    refine ⟨?_, (FECEncoder.encodeBlocks_maxBlockSize h).trans he⟩
    rw [hnil, List.length_nil]
    omega
  · rw [if_neg hnil] at h
    refine ⟨?_, (FECEncoder.push_maxBlockSize h).trans he⟩
    obtain ⟨b, hb, h⟩ := bind_eq_ok.mp h
    obtain ⟨b', hfill, -⟩ := bind_eq_ok.mp h
    obtain ⟨b₀, hb₀, hlen⟩ :=
      FECEncoder.getNextBlock_ok (he ▸ htwo.le) (he ▸ l.blocksize_le) msg.length
    obtain rfl := Except.ok.inj (hb.symm.trans hb₀)
    rw [FECBlock.fill] at hfill
    split at hfill
    case isTrue hroom =>
      rw [hlen, he] at hroom
      omega
    case isFalse => cases hfill

/-! ## All links -/

section Turns

variable {links : List Link} {c : Bridge}

theorem Bridge.map_block_transmitAll (enc : ℕ) (e : FECEncoder) (outqueue : ℕ → SharedQueue Message)
    (blocks : List FECBlock) :
    (c.transmitAll enc e outqueue blocks).map Transmission.block = blocks := by
  induction blocks with
  | nil => rfl
  | cons b rest ih => rw [transmitAll, List.map_cons, ih]

theorem Bridge.transmitAll_spec (enc : ℕ) (e : FECEncoder) (outqueue : ℕ → SharedQueue Message)
    (blocks : List FECBlock) : ∀ t ∈ c.transmitAll enc e outqueue blocks,
      t.enc = enc ∧ (t.block.isDataBlock → t.sent = true) := by
  induction blocks with
  | nil => simp [transmitAll]
  | cons b rest ih =>
      intro t ht
      rcases List.mem_cons.mp ht with rfl | ht
      · refine ⟨rfl, fun hdata ↦ ?_⟩
        have hkeep : ¬c.withholds (outqueue rest.length) { e with outBlocks := rest } b :=
          fun hw ↦ hw.1 hdata
        simp only [hkeep, decide_false, Bool.not_false]
      · exact ih t ht

theorem Bridge.filter_transmitAll_self (c : Bridge) (enc : ℕ) (e : FECEncoder)
    (outqueue : ℕ → SharedQueue Message) (blocks : List FECBlock) :
    (c.transmitAll enc e outqueue blocks).filter (·.enc = enc) =
      c.transmitAll enc e outqueue blocks :=
  List.filter_eq_self.mpr fun t ht ↦
    decide_eq_true (c.transmitAll_spec enc e outqueue blocks t ht).1

theorem Bridge.filter_transmitAll_ne (c : Bridge) {enc i : ℕ} (h : enc ≠ i) (e : FECEncoder)
    (outqueue : ℕ → SharedQueue Message) (blocks : List FECBlock) :
    (c.transmitAll enc e outqueue blocks).filter (·.enc = i) = [] := by
  rw [List.filter_eq_nil_iff]
  intro t ht
  rw [decide_eq_true_eq, (c.transmitAll_spec enc e outqueue blocks t ht).1]
  exact h

section

variable {α : Type*} {turns : List (Option Message × α)} {i : ℕ} {msg : Message} {a : α}

theorem opsOf_append (turns' : List (Option Message × α)) :
    opsOf i (turns ++ turns') = opsOf i turns ++ opsOf i turns' := List.filterMap_append

theorem opsOf_concat_self (h : msg.enc = i) :
    opsOf i (turns ++ [(some msg, a)]) = opsOf i turns ++ [.ofMessage msg.msg] := by
  rw [opsOf_append]
  simp [opsOf, h]

theorem opsOf_concat_ne (h : msg.enc ≠ i) : opsOf i (turns ++ [(some msg, a)]) = opsOf i turns := by
  rw [opsOf_append]
  simp [opsOf, h]

theorem opsOf_concat_none : opsOf i (turns ++ [(none, a)]) = opsOf i turns := by
  rw [opsOf_append]
  exact List.append_nil _

theorem Fits.messages (h : Fits links turns) {l : Link} (hl : links[i]? = some l) :
    ∀ m ∈ messages (opsOf i turns), m.length + 2 ≤ l.blocksize := by
  intro m hm
  obtain ⟨op, hop, hm⟩ := List.mem_filterMap.mp hm
  obtain ⟨t, ht, hop⟩ := List.mem_filterMap.mp hop
  obtain ⟨msg, hmsg, hop⟩ := Option.bind_eq_some_iff.mp hop
  obtain ⟨l', hl', hfit⟩ := h t ht msg hmsg
  split at hop
  case isTrue henc =>
    obtain rfl := Option.some.inj hop
    rw [henc, hl] at hl'
    obtain rfl := Option.some.inj hl'
    rw [FECEncoder.Op.ofMessage] at hm
    by_cases hnil : msg.msg = []
    · rw [if_pos hnil] at hm
      cases hm
    · rw [if_neg hnil] at hm
      rwa [← Option.some.inj hm]
  case isFalse => cases hop

end

/-- For a message of link `i`, whether the queue holds no more than it may
when its block is tested. -/
def Bridge.hasRoom (c : Bridge) (i : ℕ) (t : Option Message × (ℕ → SharedQueue Message)) :
    Option Bool :=
  t.1.bind fun msg ↦
    if msg.enc = i ∧ msg.msg ≠ [] then some (decide ((t.2 0).size ≤ c.maxQueueSize)) else none

/-- The block of a message that is taken for redundancy is sent if the queue has room. -/
theorem Bridge.map_sent_transmitAll (c : Bridge) {msg : Message} {e : FECEncoder}
    {outqueue : ℕ → SharedQueue Message} (h : msg.msg = [] ∧ e.outBlocks = [] ∨
      msg.msg ≠ [] ∧ ∃ b, e.outBlocks = [b] ∧ b.isFecBlock) :
    ((c.transmitAll msg.enc e outqueue e.outBlocks).filter (·.enc = msg.enc)).map
        Transmission.sent =
      [(some msg, outqueue)].filterMap (c.hasRoom msg.enc) := by
  rw [c.filter_transmitAll_self]
  rcases h with ⟨hnil, hout⟩ | ⟨hne, b, hout, hfec⟩
  · rw [hout]
    simp [transmitAll, hasRoom, hnil]
  · have hsent : (!decide (c.withholds (outqueue 0) { e with outBlocks := [] } b)) =
        decide ((outqueue 0).size ≤ c.maxQueueSize) := by
      rw [← decide_not, decide_eq_decide]
      exact ⟨fun h ↦ Nat.not_lt.mp fun hlt ↦ h ⟨hfec, hlt⟩, fun h hw ↦ Nat.not_lt.mpr h hw.2⟩
    rw [hout]
    simp [transmitAll, hasRoom, hne, hsent]

/-- The encoders after some turns, and the blocks the thread has come to. -/
structure Serves (links : List Link) (c : Bridge)
    (turns : List (Option Message × (ℕ → SharedQueue Message))) (outs : List (List Transmission))
    (es : List FECEncoder) : Prop where
  served : ∀ (i : ℕ) (l : Link), links[i]? = some l → ∃ e, es[i]? = some e ∧ e.outBlocks = [] ∧
    e.Served l (opsOf i turns) ((outs.flatten.filter (·.enc = i)).map Transmission.block)
  sent : ∀ t ∈ outs.flatten, t.block.isDataBlock → t.sent = true
  hasRoom : ∀ (i : ℕ) (l : Link), links[i]? = some l → u8 l.nblocks = 0 →
    (outs.flatten.filter (·.enc = i)).map Transmission.sent = turns.filterMap (c.hasRoom i)

namespace Serves

variable {turns : List (Option Message × (ℕ → SharedQueue Message))}
  {outs : List (List Transmission)} {es : List FECEncoder}

theorem init : Serves links c [] [] (links.map Link.encoder) := by
  refine ⟨fun i l hl ↦ ⟨l.encoder, ?_, rfl, .init l⟩, by simp, fun _ _ _ _ ↦ rfl⟩
  rw [List.getElem?_map, hl]
  rfl

theorem turn (h : Serves links c turns outs es) {t : Option Message × (ℕ → SharedQueue Message)}
    (hfits : Fits links (turns ++ [t])) :
    ∃ out es', c.sendTurn es t = .ok (out, es') ∧
      Serves links c (turns ++ [t]) (outs ++ [out]) es' := by
  obtain ⟨msg?, outqueue⟩ := t
  cases msg? with
  | none =>
      have houts : (outs ++ [[]]).flatten = outs.flatten := by
        rw [List.flatten_append, List.flatten_singleton, List.append_nil]
      refine ⟨[], es, rfl, fun i l hl ↦ ?_, ?_, fun i l hl h0 ↦ ?_⟩
      · rw [opsOf_concat_none, houts]
        exact h.served i l hl
      · rw [houts]
        exact h.sent
      · rw [houts, h.hasRoom i l hl h0, List.filterMap_append]
        exact (List.append_nil _).symm
  | some msg =>
      obtain ⟨l, hl, hmsg⟩ := hfits _ (List.mem_append_right _ List.mem_cons_self) msg rfl
      obtain ⟨e, he, hdrained, hserved⟩ := h.served msg.enc l hl
      have hold : Fits links turns := fun t ht ↦ hfits t (List.mem_append_left _ ht)
      obtain ⟨e', hhandle, hserved'⟩ := hserved.handle hdrained (hold.messages hl) hmsg
      have hspec := c.transmitAll_spec msg.enc e' outqueue e'.outBlocks
      refine ⟨c.transmitAll msg.enc e' outqueue e'.outBlocks, es.set msg.enc e'.drain, ?_, ?_, ?_,
        ?_⟩
      · rw [Bridge.sendTurn, readAt_eq_ok.mpr he, ok_bind, hhandle, ok_bind]
      · intro i l' hl'
        rw [List.flatten_append, List.flatten_singleton, List.filter_append, List.map_append]
        by_cases henc : msg.enc = i
        · subst henc
          obtain rfl := Option.some.inj (hl.symm.trans hl')
          have hlt := (List.getElem?_eq_some_iff.mp he).1
          refine ⟨e'.drain, List.getElem?_set_self hlt, rfl, ?_⟩
          rw [opsOf_concat_self rfl, c.filter_transmitAll_self, Bridge.map_block_transmitAll]
          exact hserved'
        · rw [opsOf_concat_ne henc, c.filter_transmitAll_ne henc, List.map_nil, List.append_nil,
            List.getElem?_set_ne henc]
          exact h.served i l' hl'
      · rw [List.flatten_append, List.flatten_singleton]
        intro t ht
        rcases List.mem_append.mp ht with ht | ht
        · exact h.sent t ht
        · exact (hspec t ht).2
      · intro i l' hl' h0
        rw [List.flatten_append, List.flatten_singleton, List.filter_append, List.map_append,
          List.filterMap_append, h.hasRoom i l' hl' h0]
        congr 1
        by_cases henc : msg.enc = i
        · subst henc
          obtain rfl := Option.some.inj (hl.symm.trans hl')
          exact c.map_sent_transmitAll (hserved.outBlocks_of_u8 h0 hdrained hmsg hhandle)
        · rw [c.filter_transmitAll_ne henc]
          simp [Bridge.hasRoom, henc]

/-- On link `i` every block that carries a message is sent,
unless the header cannot show it and the queue has no room. -/
theorem met_iff (h : Serves links c turns outs es) (hfits : Fits links turns) {i : ℕ} {l : Link}
    (hl : links[i]? = some l) :
    List.Forall₂ Origin.Met (outs.flatten.filter (·.enc = i)) (l.origins (opsOf i turns)) ↔
      (u8 l.nblocks = 0 → ∀ room ∈ turns.filterMap (c.hasRoom i), room = true) := by
  constructor
  · intro hmet h0 room hroom
    rw [← h.hasRoom i l hl h0] at hroom
    obtain ⟨t, ht, rfl⟩ := List.mem_map.mp hroom
    rw [Link.origins, if_pos (Link.fecOff_of_u8 h0), List.forall₂_map_right_iff] at hmet
    exact hmet.forall_mem (fun t msg _ hmsg ↦ hmsg.2) t ht
  · intro hroom
    obtain ⟨e, -, -, hserved⟩ := h.served i l hl
    have hshown := List.forall₂_map_left_iff.mp (hserved.shown (hfits.messages hl))
    have hsent : ∀ t ∈ outs.flatten.filter (·.enc = i),
        (u8 l.nblocks ≠ 0 → t.block.isDataBlock) → t.sent = true := by
      intro t ht hdata
      by_cases h0 : u8 l.nblocks = 0
      · refine hroom h0 _ ?_
        rw [← h.hasRoom i l hl h0]
        exact List.mem_map_of_mem ht
      · exact h.sent t (List.mem_filter.mp ht).1 (hdata h0)
    refine ((List.forall₂_and_left _ _).mpr ⟨hsent, hshown⟩).imp ?_
    rintro t (msg | _) ⟨hsent, hshow⟩
    · exact ⟨hshow.1, hsent hshow.2⟩
    · trivial

end Serves

theorem uncongested_iff {turns : List (Option Message × (ℕ → SharedQueue Message))} :
    Uncongested links c turns ↔ ∀ (i : ℕ) (l : Link), links[i]? = some l → u8 l.nblocks = 0 →
      ∀ room ∈ turns.filterMap (c.hasRoom i), room = true := by
  constructor
  · intro h i l hl h0 room hroom
    obtain ⟨t, ht, hroom⟩ := List.mem_filterMap.mp hroom
    obtain ⟨msg, hmsg, hroom⟩ := Option.bind_eq_some_iff.mp hroom
    by_cases hcond : msg.enc = i ∧ msg.msg ≠ []
    · rw [if_pos hcond] at hroom
      rw [← Option.some.inj hroom]
      exact decide_eq_true (h t ht msg hmsg hcond.2 l (hcond.1 ▸ hl) h0)
    · rw [if_neg hcond] at hroom
      cases hroom
  · intro h t ht msg hmsg hne l hl h0
    refine of_decide_eq_true (h msg.enc l hl h0 _ (List.mem_filterMap.mpr ⟨t, ht, ?_⟩))
    rw [Bridge.hasRoom, Option.mem_def.mp hmsg, Option.bind_some, if_pos ⟨rfl, hne⟩]

/-- Messages that fit make no trouble. -/
theorem run_sendTurn {turns : List (Option Message × (ℕ → SharedQueue Message))}
    (h : Fits links turns) :
    ∃ outs es, Run.run c.sendTurn (links.map Link.encoder) turns = .ok (outs, es) ∧
      Serves links c turns outs es := by
  refine Run.run_inv c.sendTurn (links.map Link.encoder) turns (Serves links c) .init ?_
  rintro pre t outs es ⟨post, rfl⟩ hserves
  refine hserves.turn fun t' ht' ↦ h t' ?_
  rw [← List.singleton_append, ← List.append_assoc]
  exact List.mem_append_left _ ht'

/-- Messages that do not fit end the run. -/
theorem fits_of_run {turns : List (Option Message × (ℕ → SharedQueue Message))}
    {outs : List (List Transmission)} {es : List FECEncoder}
    (h : Run.run c.sendTurn (links.map Link.encoder) turns = .ok (outs, es)) :
    Fits links turns := by
  refine (Run.inv_of_run (P := fun pre es ↦ Fits links pre ∧
    List.Forall₂ (fun e l ↦ e.maxBlockSize = l.blocksize) es links) ⟨by simp [Fits], ?_⟩ ?_ h).1
  · rw [List.forall₂_map_left_iff, List.forall₂_same]
    exact fun l _ ↦ rfl
  · rintro pre ⟨msg?, outqueue⟩ es out es' - ⟨hfits, hes⟩ hturn
    cases msg? with
    | none =>
        obtain ⟨-, rfl⟩ := Prod.mk.inj (Except.ok.inj hturn)
        refine ⟨fun t ht ↦ ?_, hes⟩
        rcases List.mem_append.mp ht with ht | ht
        · exact hfits t ht
        · rw [List.mem_singleton.mp ht]
          simp
    | some msg =>
        obtain ⟨e, he, hturn⟩ := bind_eq_ok.mp hturn
        obtain ⟨e', hhandle, hturn⟩ := bind_eq_ok.mp hturn
        obtain ⟨-, rfl⟩ := Prod.mk.inj (Except.ok.inj hturn)
        obtain ⟨hlt, rfl⟩ := List.getElem?_eq_some_iff.mp (readAt_eq_ok.mp he)
        have hlt' : msg.enc < links.length := hes.length_eq ▸ hlt
        obtain ⟨hfit, hmax⟩ := Link.fits_of_handle (hes.get hlt hlt') hhandle
        refine ⟨fun t ht ↦ ?_, ?_⟩
        · rcases List.mem_append.mp ht with ht | ht
          · exact hfits t ht
          · rw [List.mem_singleton.mp ht]
            intro m hm
            obtain rfl := Option.some.inj (Option.mem_def.mp hm)
            exact ⟨links[msg.enc], List.getElem?_eq_getElem hlt', hfit⟩
        · rw [List.forall₂_iff_get]
          refine ⟨by rw [List.length_set, hes.length_eq], fun i hi hi' ↦ ?_⟩
          rw [List.get_eq_getElem, List.getElem_set]
          split
          case isTrue heq =>
            subst heq
            exact hmax
          case isFalse => exact hes.get _ _

end Turns

section

variable {links : List Link} {c : Bridge}
  {turns : List (Option Message × (ℕ → SharedQueue Message))}

theorem WithholdsOnlyRedundancy.fits_uncongested (h : WithholdsOnlyRedundancy links c turns) :
    Fits links turns ∧ Uncongested links c turns := by
  obtain ⟨outs, es, hrun, hmet⟩ := h
  have hfits := fits_of_run hrun
  obtain ⟨outs', es', hrun', hserves⟩ := run_sendTurn (c := c) hfits
  obtain ⟨rfl, rfl⟩ := Prod.mk.inj (Except.ok.inj (hrun.symm.trans hrun'))
  exact ⟨hfits, uncongested_iff.mpr fun i l hl ↦ (hserves.met_iff hfits hl).mp (hmet i l hl)⟩

theorem Uncongested.withholdsOnlyRedundancy (h : Uncongested links c turns)
    (hfits : Fits links turns) :
    WithholdsOnlyRedundancy links c turns := by
  obtain ⟨outs, es, hrun, hserves⟩ := run_sendTurn (c := c) hfits
  exact ⟨outs, es, hrun, fun i l hl ↦ (hserves.met_iff hfits hl).mpr (uncongested_iff.mp h i l hl)⟩

/-- The queue that `main` sets up holds at most `max_queue_size` messages, and then it is so. -/
theorem withholdsOnlyRedundancy_of_size_le (hfits : Fits links turns)
    (hqueue : ∀ t ∈ turns, (t.2 0).size ≤ c.maxQueueSize) :
    WithholdsOnlyRedundancy links c turns := by
  refine Uncongested.withholdsOnlyRedundancy ?_ hfits
  intro t ht msg _ _ l _ _
  exact hqueue t ht

end

/-- Congestion drops redundancy alone, unless a link has 0 for its number of blocks. -/
theorem withholdsOnlyRedundancy_iff (links : List Link) (c : Bridge)
    (turns : List (Option Message × (ℕ → SharedQueue Message))) :
    WithholdsOnlyRedundancy links c turns ↔ Fits links turns ∧ Uncongested links c turns :=
  ⟨fun h ↦ h.fits_uncongested, fun h ↦ h.2.withholdsOnlyRedundancy h.1⟩

/-- A message of the first link. -/
def smallMessage : Message where
  msg := [1]
  port := 0
  ipPort := 0
  priority := 100
  opts := { linkType := .dataLink, dataRate := 18 }
  enc := 0

/-- On a link without FEC, with the number of blocks at its default, a message is withheld when more
are waiting than the thread has been told of. -/
theorem not_withholdsOnlyRedundancy_default :
    ¬WithholdsOnlyRedundancy [{ mtu := 1500, nblocks := 0, nfecBlocks := 0 }]
      { socket := { ground := false, mtu := 1500 }, maxQueueSize := 1, portMsgLut := [] }
      [(some smallMessage, fun _ ↦ { maxSize := 2, queue := [smallMessage, smallMessage] })] := by
  intro h
  have hle := h.fits_uncongested.2 _ List.mem_cons_self smallMessage rfl (by decide) _ rfl rfl
  exact absurd hle (by decide)

end WfbBridge
