import Mathlib
import WfbBridge.Bridge.Pipeline

/-!
# The threads with losses

Every step of a thread, and every loss, is a step of the pipeline of one link.  So the bridge
refines its links: in any interleaving, what a link writes comes out of a run of its encoder, a
lossy channel, and a run of its decoder.
-/

namespace WfbBridge

open Checked

/-- A queue that does not clear itself appends, or is full and stays as it is. -/
theorem SharedQueue.push_of_keeps {α : Type} {q : SharedQueue α} (h : q.clearOnFull = false)
    (item : α) :
    q.push item = { q with queue := q.queue ++ [item] } ∨
      ¬q.size < q.maxSize ∧ q.push item = q := by
  rcases q.push_cases item with ⟨-, hpush⟩ | ⟨hfull, -, hpush⟩ | ⟨-, hclear, -⟩
  · exact .inl hpush
  · exact .inr ⟨Nat.not_lt.mpr hfull, hpush⟩
  · rw [h] at hclear
    cases hclear

/-- The ports of the links have a decoder. -/
theorem decoderIdx_of_lt {b : BridgeConfig} {m : MonitorMessage} (h : m.port < b.links.length) :
    decoderIdx m = some m.port := by
  have hlt := h.trans_le BridgeConfig.links_length_le
  rw [decoderIdx, u8_of_lt (hlt.trans (by decide)), if_neg (Nat.not_le.mpr hlt)]

/-- The message that a step puts into encoder `i`. -/
def Bridge.takes (i : ℕ) (s : BridgeState) : LossyOp → List (List UInt8)
  | .thread .take =>
      match s.sending, s.outqueue.queue with
      | none, m :: _ => if m.enc = i then [m.msg] else []
      | _, _ => []
  | _ => []

/-- The packet that a step gives to decoder `i`. -/
def Bridge.decodes (i : ℕ) (s : BridgeState) : LossyOp → List (List UInt8)
  | .thread .decode =>
      match s.decoding, s.inqueue.queue with
      | none, m :: _ => if decoderIdx m = some i then [m.data] else []
      | _, _ => []
  | _ => []

/-- Link `i` is in order. -/
structure BridgeState.PipeInv (L : Losses) (l : Link)
    (reads written taken consumed : List (List UInt8)) (pkts : List (ℕ × List UInt8)) (i : ℕ)
    (s : BridgeState) (e : FECEncoder) (d : FECDecoder) :
    Prop where
  encoder : s.encoders[i]? = some e
  decoder : s.decoders[i]? = some d
  fits : ∀ b ∈ e.outBlocks, b.packet ≠ [] ∧ b.pktLength ≤ l.blocksize + 4
  sending : s.sending.map Message.enc ≠ some i → e.outBlocks = []
  decoding : s.decoding ≠ some i → d.outBlocks = []
  pipe : (s.view pkts i e d []).Pipe L l reads written taken consumed d.outBlocks

theorem BridgeState.PipeInv.frame {L : Losses} {l : Link}
    {reads written taken consumed : List (List UInt8)} {pkts pkts' : List (ℕ × List UInt8)} {i : ℕ}
    {s s' : BridgeState} {e : FECEncoder} {d : FECDecoder}
    (h : s.PipeInv L l reads written taken consumed pkts i e d)
    (hframe : Untouched i pkts pkts' s s') :
    s'.PipeInv L l reads written taken consumed pkts' i e d where
  encoder := hframe.encoder.trans h.encoder
  decoder := hframe.decoder.trans h.decoder
  fits := h.fits
  sending hne := h.sending (hframe.sending hne)
  decoding hne := h.decoding (hframe.decoding hne)
  pipe := hframe.view e d [] ▸ h.pipe

/-- The invariant of the threads.  `took` and `got` are what the encoders and the decoders
have been given so far. -/
structure Bridge.LossyInv (b : BridgeConfig) (L : Losses) (reads : List (List UInt8))
    (took got : ℕ → List (List UInt8)) (written pkts : List (ℕ × List UInt8)) (s : BridgeState) :
    Prop where
  outqueue_keeps : s.outqueue.clearOnFull = false
  inqueue_keeps : s.inqueue.clearOnFull = false
  sendQueue_keeps : s.sendQueue.clearOnFull = false
  queued : ∀ m ∈ s.outqueue.queue, m.enc < b.links.length ∧ m.port = UInt8.ofNat m.enc
  sending : ∀ m ∈ s.sending, m.enc < b.links.length ∧ m.port = UInt8.ofNat m.enc
  air : List.Forall₂ (IsFrame b.socket.ground) s.air pkts
  packets : ∀ p ∈ pkts, p.1 < b.links.length ∧ p.2 ≠ []
  inqueue : ∀ m ∈ s.inqueue.queue, m.port < b.links.length
  decoding : ∀ i ∈ s.decoding, i < b.links.length
  link : ∀ (i : ℕ) (g : Section) (hg : b.links[i]? = some g), ∃ e d,
    s.PipeInv L (b.link g (List.mem_of_getElem? hg)) (b.readsOf g reads)
      (onLink Prod.fst Prod.snd i written) (took i) (got i) pkts i e d

namespace Bridge.LossyInv

variable {b : BridgeConfig} {L : Losses} {l : Links} {reads : List (List UInt8)}
  {took took' got got' : ℕ → List (List UInt8)}
  {written pkts : List (ℕ × List UInt8)} {s s' : BridgeState}

/-- At the start. -/
theorem init (hl : l.Configured b.blocksize b.links) :
    LossyInv b L [] (fun _ ↦ []) (fun _ ↦ []) [] [] (b.start l) := by
  refine ⟨rfl, rfl, rfl, by simp [BridgeConfig.start, SharedQueue.new],
    by simp [BridgeConfig.start], .nil, by simp, by simp [BridgeConfig.start, SharedQueue.new],
    by simp [BridgeConfig.start], fun i g hg ↦ ?_⟩
  have hi : i < rawSocketNPorts :=
    (List.getElem?_eq_some_iff.mp hg).1.trans_le BridgeConfig.links_length_le
  refine ⟨g.encoder b.blocksize, {}, ?_, ?_, by simp [Section.encoder, FECEncoder.new],
    fun _ ↦ rfl, fun _ ↦ rfl, LinkView.Pipe.init _ _⟩
  · change l.encoders[i]? = _
    rw [hl.encoders, List.getElem?_map, hg, Option.map_some]
  · change (List.replicate rawSocketNPorts _)[i]? = _
    rw [List.getElem?_replicate, if_pos hi]

/-- A step that is about link `i` only. -/
theorem forall_link (h : LossyInv b L reads took got written pkts s) {i : ℕ} {g : Section}
    (hg : b.links[i]? = some g) {reads' : List (List UInt8)} {pkts' : List (ℕ × List UInt8)}
    (hself : ∃ e d, s'.PipeInv L (b.link g (List.mem_of_getElem? hg)) (b.readsOf g reads')
      (onLink Prod.fst Prod.snd i written) (took' i) (got' i) pkts' i e d)
    (hobserved : ∀ j, j ≠ i → took' j = took j ∧ got' j = got j)
    (hreads : ∀ (j : ℕ) (g' : Section), b.links[j]? = some g' → j ≠ i →
      b.readsOf g' reads' = b.readsOf g' reads)
    (hother : ∀ j, j ≠ i → BridgeState.Untouched j pkts pkts' s s') :
    ∀ (j : ℕ) (g' : Section) (hj : b.links[j]? = some g'), ∃ e d,
      s'.PipeInv L (b.link g' (List.mem_of_getElem? hj)) (b.readsOf g' reads')
        (onLink Prod.fst Prod.snd j written) (took' j) (got' j) pkts' j e d := by
  intro j g' hj
  by_cases hji : j = i
  · subst hji
    obtain rfl := Option.some.inj (hg.symm.trans hj)
    exact hself
  · obtain ⟨e₂, d₂, hlink₂⟩ := h.link j g' hj
    rw [hreads j g' hj hji, (hobserved j hji).1, (hobserved j hji).2]
    exact ⟨e₂, d₂, hlink₂.frame (hother j hji)⟩

/-- A message is put into the output queue. -/
theorem enqueue (h : LossyInv b L reads took got written pkts s) {i : ℕ} {g : Section}
    (hg : b.links[i]? = some g) {m : Message} (henc : m.enc = i) (hport : m.port = UInt8.ofNat i)
    {reads' : List (List UInt8)} (hself : ∀ {v : LinkView} {pending : List (FECBlock × ℕ)},
      v.Pipe L (b.link g (List.mem_of_getElem? hg)) (b.readsOf g reads)
        (onLink Prod.fst Prod.snd i written) (took i) (got i) pending →
      { v with queued := v.queued ++ [m.msg] }.Pipe L (b.link g (List.mem_of_getElem? hg))
        (b.readsOf g reads') (onLink Prod.fst Prod.snd i written) (took i) (got i) pending)
    (hreads : ∀ (j : ℕ) (g' : Section), b.links[j]? = some g' → j ≠ i →
      b.readsOf g' reads' = b.readsOf g' reads) :
    LossyInv b L reads' took got written pkts
      { s with outqueue := { s.outqueue with queue := s.outqueue.queue ++ [m] } } := by
  refine ⟨h.outqueue_keeps, h.inqueue_keeps, h.sendQueue_keeps, ?_, h.sending, h.air, h.packets,
    h.inqueue, h.decoding, h.forall_link hg ?_ (fun _ _ ↦ ⟨rfl, rfl⟩) hreads ?_⟩
  · intro m' hm'
    rcases List.mem_append.mp hm' with hm' | hm'
    · exact h.queued m' hm'
    · rw [List.mem_singleton.mp hm', henc]
      exact ⟨(List.getElem?_eq_some_iff.mp hg).1, hport⟩
  · obtain ⟨e, d, hlink⟩ := h.link i g hg
    refine ⟨e, d, hlink.encoder, hlink.decoder, hlink.fits, hlink.sending, hlink.decoding, ?_⟩
    rw [BridgeState.view, onLink_concat_self henc]
    exact hself hlink.pipe
  · intro j hji
    refine ⟨rfl, rfl, id, id, fun e d ms ↦ ?_⟩
    rw [BridgeState.view, onLink_concat_ne (henc ▸ Ne.symm hji)]
    rfl

theorem readsOf_concat_self {g : Section} {pkt : List UInt8}
    (h : b.MapsTo g (TUNInterface.ipPort pkt)) :
    b.readsOf g (reads ++ [pkt]) = b.readsOf g reads ++ [pkt] := by
  rw [BridgeConfig.readsOf, List.filter_append, List.filter_cons_of_pos (by simpa using h),
    List.filter_nil]
  rfl

theorem readsOf_concat_ne {g : Section} {pkt : List UInt8}
    (h : ¬b.MapsTo g (TUNInterface.ipPort pkt)) :
    b.readsOf g (reads ++ [pkt]) = b.readsOf g reads := by
  rw [BridgeConfig.readsOf, List.filter_append, List.filter_cons_of_neg (by simpa using h),
    List.filter_nil, List.append_nil]
  rfl

/-- A packet is read. -/
theorem read (h : LossyInv b L reads took got written pkts s)
    (hl : l.Configured b.blocksize b.links) {pkt : List UInt8} (hne : pkt ≠ [])
    (hroom : s.outqueue.size < s.outqueue.maxSize ∨ L.reads) :
    LossyInv b L (reads ++ [TUNInterface.read pkt]) took got written pkts
      ((b.bridge l).read s pkt) := by
  obtain ⟨i, g, hg, hproto, hmaps⟩ :=
    BridgeConfig.proto_spec hl (TUNInterface.ipPort (TUNInterface.read pkt))
  have hself : b.readsOf g (reads ++ [TUNInterface.read pkt]) =
      b.readsOf g reads ++ [TUNInterface.read pkt] :=
    readsOf_concat_self ((hmaps i g hg).mpr rfl)
  have hother : ∀ (j : ℕ) (g' : Section), b.links[j]? = some g' → j ≠ i →
      b.readsOf g' (reads ++ [TUNInterface.read pkt]) = b.readsOf g' reads := fun j g' hj hji ↦
    readsOf_concat_ne fun hto ↦ hji ((hmaps j g' hj).mp hto)
  simp only [Bridge.read, hproto]
  rcases SharedQueue.push_of_keeps h.outqueue_keeps
      ((g.prototype b.blocksize (UInt8.ofNat i) i).copy
        (TUNInterface.read pkt) (TUNInterface.ipPort (TUNInterface.read pkt)))
    with hpush | ⟨hfull, hpush⟩
  · rw [hpush]
    refine h.enqueue hg rfl rfl (fun hv ↦ ?_) hother
    rw [hself]
    refine hv.read ?_
    cases pkt with
    | nil => exact absurd rfl hne
    | cons x pkt => exact List.cons_ne_nil _ _
  · rw [hpush]
    refine ⟨h.outqueue_keeps, h.inqueue_keeps, h.sendQueue_keeps, h.queued, h.sending, h.air,
      h.packets, h.inqueue, h.decoding, h.forall_link hg ?_ (fun _ _ ↦ ⟨rfl, rfl⟩) hother
        fun j _ ↦ ⟨rfl, rfl, id, id, fun _ _ _ ↦ rfl⟩⟩
    obtain ⟨e, d, hlink⟩ := h.link i g hg
    refine ⟨e, d, hlink.encoder, hlink.decoder, hlink.fits, hlink.sending, hlink.decoding, ?_⟩
    rw [hself]
    exact hlink.pipe.lose_read (hroom.resolve_left hfull) _

/-- A turn of the loop that flushes the encoders. -/
theorem flush (h : LossyInv b L reads took got written pkts s)
    (hl : l.Configured b.blocksize b.links) {ipPort : ℕ}
    (hflush : (b.bridge l).flush s ipPort = .ok s') :
    LossyInv b L reads took got written pkts s' := by
  rw [Bridge.flush] at hflush
  cases hfind : SortedMap.find ipPort (b.bridge l).portMsgLut with
  | none =>
      simp only [hfind] at hflush
      exact Except.ok.inj hflush ▸ h
  | some proto =>
      obtain ⟨i, g, hg, -, rfl : proto = _⟩ := hl.mem_lut _ (SortedMap.mem_of_find hfind)
      simp only [hfind] at hflush
      obtain ⟨e, -, hflush⟩ := bind_eq_ok.mp hflush
      split at hflush
      · exact Except.ok.inj hflush ▸ h
      · obtain rfl := Except.ok.inj hflush
        rcases SharedQueue.push_of_keeps h.outqueue_keeps
            ((g.prototype b.blocksize (UInt8.ofNat i) i).copy []
              (g.prototype b.blocksize (UInt8.ofNat i) i).ipPort)
          with hpush | ⟨-, hpush⟩
        · rw [hpush]
          exact h.enqueue hg rfl rfl (fun hv ↦ hv.queueFlush) fun _ _ _ _ ↦ rfl
        · rw [hpush]
          exact h

/-- The next message goes into its encoder. -/
theorem take (h : LossyInv b L reads took got written pkts s) (htake : Bridge.take s = .ok s') :
    LossyInv b L reads (fun i ↦ took i ++ takes i s (.thread .take)) got written pkts s' := by
  rw [Bridge.take] at htake
  cases hsending : s.sending with
  | some m =>
      simp only [hsending] at htake
      simp only [takes, hsending, List.append_nil]
      exact Except.ok.inj htake ▸ h
  | none =>
      cases hqueue : s.outqueue.queue with
      | nil =>
          simp only [hsending, SharedQueue.tryPop, hqueue] at htake
          simp only [takes, hsending, hqueue, List.append_nil]
          exact Except.ok.inj htake ▸ h
      | cons m rest =>
          simp only [takes, hsending, hqueue]
          obtain ⟨hlt, hport⟩ := h.queued m (hqueue ▸ List.mem_cons_self)
          obtain ⟨g, hg⟩ := Bridge.Inv.exists_section hlt
          obtain ⟨e, d, hlink⟩ := h.link m.enc g hg
          have hnone : ∀ j, s.sending.map Message.enc ≠ some j := by
            intro j
            rw [hsending]
            exact Option.some_ne_none j ∘ Eq.symm
          have hout : e.outBlocks = [] := hlink.sending (hnone _)
          have hdrain : e.drain = e := by
            rw [FECEncoder.drain, ← hout]
          simp only [hsending, SharedQueue.tryPop, hqueue, readAt_eq_ok.mpr hlink.encoder,
            ok_bind] at htake
          obtain ⟨e', hhandle, hs'⟩ := bind_eq_ok.mp htake
          obtain rfl := Except.ok.inj hs'
          obtain ⟨hfits, hpipe⟩ := hlink.pipe.serve m.msg
            (onLink Message.enc Message.msg m.enc rest) (by
              rw [BridgeState.view, hqueue, onLink_cons_self rfl]) (by
              rw [BridgeState.view, hdrain]
              exact hhandle)
          have hself : (s.encoders.set m.enc e')[m.enc]? = some e' :=
            List.getElem?_set_self (List.getElem?_eq_some_iff.mp hlink.encoder).1
          refine ⟨h.outqueue_keeps, h.inqueue_keeps, h.sendQueue_keeps, ?_, ?_, h.air, h.packets,
            h.inqueue, h.decoding, h.forall_link hg ⟨e', d, ?_⟩ ?_ (fun _ _ _ _ ↦ rfl) ?_⟩
          · exact fun m' hm' ↦ h.queued m' (hqueue ▸ List.mem_cons_of_mem _ hm')
          · intro m' hm'
            obtain rfl := Option.some.inj hm'
            exact ⟨hlt, hport⟩
          · refine ⟨hself, hlink.decoder, hfits, fun hne ↦ absurd rfl hne, hlink.decoding, ?_⟩
            rw [BridgeState.view, hout, List.map_nil, List.append_nil] at hpipe
            rw [BridgeState.view, ← List.append_assoc, if_pos rfl]
            exact hpipe
          · intro j hji
            rw [if_neg (Ne.symm hji), List.append_nil]
            exact ⟨rfl, rfl⟩
          · intro j hji
            refine ⟨List.getElem?_set_ne (Ne.symm hji), rfl, fun _ ↦ hnone j, id, fun e d ms ↦ ?_⟩
            rw [BridgeState.view, BridgeState.view, hqueue, onLink_cons_ne (Ne.symm hji)]

/-- The next block of the encoder is sent or withheld. -/
theorem transmit (h : LossyInv b L reads took got written pkts s) {pad2 now : UInt8}
    (htransmit : (b.bridge l).transmit s pad2 now = .ok s') :
    ∃ pkts', LossyInv b L reads took got written pkts' s' := by
  rw [Bridge.transmit] at htransmit
  cases hsending : s.sending with
  | none =>
      simp only [hsending] at htransmit
      exact ⟨pkts, Except.ok.inj htransmit ▸ h⟩
  | some m =>
      obtain ⟨hlt, hport⟩ := h.sending m hsending
      obtain ⟨g, hg⟩ := Bridge.Inv.exists_section hlt
      obtain ⟨e, d, hlink⟩ := h.link m.enc g hg
      have hidle : ∀ j, j ≠ m.enc → s.sending.map Message.enc ≠ some j := by
        intro j hji
        rw [hsending]
        exact fun heq ↦ hji (Option.some.inj heq).symm
      simp only [hsending, readAt_eq_ok.mpr hlink.encoder, ok_bind] at htransmit
      cases hout : e.outBlocks with
      | nil =>
          have hget : e.getBlock = (none, e) := by rw [FECEncoder.getBlock, hout]
          rw [hget] at htransmit
          obtain rfl := Except.ok.inj htransmit
          refine ⟨pkts, h.outqueue_keeps, h.inqueue_keeps, h.sendQueue_keeps, h.queued, by simp,
            h.air, h.packets, h.inqueue, h.decoding, fun j g' hj ↦ ?_⟩
          obtain ⟨e₂, d₂, hlink₂⟩ := h.link j g' hj
          have hout₂ : e₂.outBlocks = [] := by
            by_cases hji : j = m.enc
            · subst hji
              rwa [Option.some.inj (hlink₂.encoder.symm.trans hlink.encoder)]
            · exact hlink₂.sending (hidle j hji)
          exact ⟨e₂, d₂, hlink₂.encoder, hlink₂.decoder, hlink₂.fits, fun _ ↦ hout₂,
            hlink₂.decoding, hlink₂.pipe⟩
      | cons block rest =>
          have hget : e.getBlock = (some block, { e with outBlocks := rest }) := by
            rw [FECEncoder.getBlock, hout]
          obtain ⟨hne, hlen⟩ := hlink.fits block (hout ▸ List.mem_cons_self)
          have hself : (s.encoders.set m.enc { e with outBlocks := rest })[m.enc]? =
              some { e with outBlocks := rest } :=
            List.getElem?_set_self (List.getElem?_eq_some_iff.mp hlink.encoder).1
          have hfits : ∀ b' ∈ rest, b'.packet ≠ [] ∧
              b'.pktLength ≤ (b.link g (List.mem_of_getElem? hg)).blocksize + 4 :=
            fun b' hb' ↦ hlink.fits b' (hout ▸ List.mem_cons_of_mem _ hb')
          have hpipe := hlink.pipe
          rw [BridgeState.view, hout, List.map_cons] at hpipe
          rw [hget] at htransmit
          by_cases hwithholds : (b.bridge l).withholds s.outqueue { e with outBlocks := rest } block
          · simp only [if_pos hwithholds] at htransmit
            obtain rfl := Except.ok.inj htransmit
            refine ⟨pkts, h.outqueue_keeps, h.inqueue_keeps, h.sendQueue_keeps, h.queued,
              hsending ▸ h.sending, h.air, h.packets, h.inqueue, h.decoding,
              h.forall_link hg ⟨{ e with outBlocks := rest }, d, hself, hlink.decoder, hfits,
                fun hidle' ↦ absurd rfl hidle', hlink.decoding, ?_⟩ (fun _ _ ↦ ⟨rfl, rfl⟩)
              (fun _ _ _ _ ↦ rfl) ?_⟩
            · rw [← List.append_assoc] at hpipe
              rw [BridgeState.view, ← List.append_assoc]
              exact hpipe.lose rfl (.inr ⟨block, hwithholds.1, rfl⟩)
            · intro j hji
              exact ⟨List.getElem?_set_ne (Ne.symm hji), rfl, fun _ ↦ hidle j hji, id,
                fun _ _ _ ↦ rfl⟩
          · have hsend := Bridge.Inv.send_block (List.mem_of_getElem? hg) hlen pad2 now m
            simp only [if_neg hwithholds] at htransmit
            simp only [BridgeConfig.bridge, hsend, ok_bind, Option.toList_some, List.map_cons,
              List.map_nil, List.append_assoc, List.drop_left] at htransmit
            obtain rfl := Except.ok.inj htransmit
            refine ⟨pkts ++ [(m.enc, block.packet)], h.outqueue_keeps, h.inqueue_keeps,
              h.sendQueue_keeps, h.queued, hsending ▸ h.sending, ?_, ?_, h.inqueue, h.decoding,
              h.forall_link hg ⟨{ e with outBlocks := rest }, d, hself, hlink.decoder, hfits,
                fun hidle' ↦ absurd rfl hidle', hlink.decoding, ?_⟩ (fun _ _ ↦ ⟨rfl, rfl⟩)
              (fun _ _ _ _ ↦ rfl) ?_⟩
            · exact List.rel_append h.air (.cons ⟨now, m.opts.linkType, by rw [hport]⟩ .nil)
            · intro p hp
              rcases List.mem_append.mp hp with hp | hp
              · exact h.packets p hp
              · rw [List.mem_singleton.mp hp]
                exact ⟨hlt, hne⟩
            · have hpkts : onLink Prod.fst Prod.snd m.enc (pkts ++ [(m.enc, block.packet)]) =
                  onLink Prod.fst Prod.snd m.enc pkts ++ [block.packet] := onLink_concat_self rfl
              rw [BridgeState.view, hpkts, List.append_assoc, List.singleton_append]
              exact hpipe
            · intro j hji
              have hpkts : onLink Prod.fst Prod.snd j (pkts ++ [(m.enc, block.packet)]) =
                  onLink Prod.fst Prod.snd j pkts := onLink_concat_ne (Ne.symm hji)
              refine ⟨List.getElem?_set_ne (Ne.symm hji), rfl, fun _ ↦ hidle j hji, id,
                fun e d ms ↦ ?_⟩
              rw [BridgeState.view, BridgeState.view, hpkts]

/-- The next frame is taken out of the air and lost. -/
theorem lose {frame : List UInt8} {air : List (List UInt8)}
    (h : LossyInv b L reads took got written pkts s) (hair : s.air = frame :: air) (hL : L.frames) :
    ∃ pkts', LossyInv b L reads took got written pkts' { s with air } := by
  have hframes := h.air
  rw [hair] at hframes
  obtain ⟨p, pkts, -, hrest, rfl⟩ := List.forall₂_cons_left_iff.mp hframes
  obtain ⟨hlt, -⟩ := h.packets p List.mem_cons_self
  obtain ⟨g, hg⟩ := Bridge.Inv.exists_section hlt
  obtain ⟨e, d, hlink⟩ := h.link p.1 g hg
  refine ⟨pkts, h.outqueue_keeps, h.inqueue_keeps, h.sendQueue_keeps, h.queued, h.sending, hrest,
    fun p' hp ↦ h.packets p' (List.mem_cons_of_mem _ hp), h.inqueue, h.decoding,
    h.forall_link hg
      ⟨e, d, hlink.encoder, hlink.decoder, hlink.fits, hlink.sending, hlink.decoding, ?_⟩
      (fun _ _ ↦ ⟨rfl, rfl⟩)
              (fun _ _ _ _ ↦ rfl) ?_⟩
  · have hpipe := hlink.pipe
    rw [BridgeState.view, onLink_cons_self rfl, List.cons_append] at hpipe
    exact hpipe.lose rfl (.inl hL)
  · intro j hji
    refine ⟨rfl, rfl, id, id, fun e d ms ↦ ?_⟩
    rw [BridgeState.view, BridgeState.view, onLink_cons_ne (Ne.symm hji)]

/-- The next frame is captured by the other side. -/
theorem receive (h : LossyInv b L reads took got written pkts s) {rt fcs : List UInt8} {curTime : ℕ}
    (hallows : L.Allows s (.thread (.receive rt fcs curTime)))
    (hreceive : (b.bridge l).receive s rt fcs curTime = .ok s') :
    ∃ pkts', LossyInv b L reads took got written pkts' s' := by
  obtain ⟨hroom, hrt, hfcs, hlen⟩ := hallows
  rw [Bridge.receive] at hreceive
  cases hair : s.air with
  | nil =>
      simp only [hair] at hreceive
      exact ⟨pkts, Except.ok.inj hreceive ▸ h⟩
  | cons frame air =>
      have hframes := h.air
      rw [hair] at hframes
      obtain ⟨p, pkts, ⟨now, type, rfl⟩, hrest, rfl⟩ := List.forall₂_cons_left_iff.mp hframes
      obtain ⟨hlt, hne⟩ := h.packets p List.mem_cons_self
      have hport : (UInt8.ofNat p.1).toNat = p.1 :=
        UInt8.toNat_ofNat_of_lt' ((hlt.trans_le BridgeConfig.links_length_le).trans (by decide))
      obtain ⟨hfilter, -, m, hmsg, hdata, hmport⟩ :=
        RawReceiveSocket.receive_frame b.socket.ground now type curTime
          (by rw [hport]; exact hlt.trans_le BridgeConfig.links_length_le) hrt hfcs
          (List.append_assoc rt _ fcs) (hlen _ (by rw [hair]; rfl))
      rw [hport] at hmport
      have hdata' : m.data.isEmpty = false := by
        rw [hdata]
        exact List.isEmpty_eq_false_iff.mpr hne
      simp only [hair, BridgeConfig.bridge, if_pos hfilter, hmsg, ok_bind, hdata',
        Bool.false_eq_true, if_false] at hreceive
      obtain rfl := Except.ok.inj hreceive
      rcases SharedQueue.push_of_keeps h.inqueue_keeps m with hpush | ⟨hfull, hpush⟩
      · rw [hpush]
        refine ⟨pkts, h.outqueue_keeps, h.inqueue_keeps, h.sendQueue_keeps, h.queued, h.sending,
          hrest, fun p' hp ↦ h.packets p' (List.mem_cons_of_mem _ hp), ?_, h.decoding,
          fun j g hj ↦ ?_⟩
        · intro m' hm'
          rcases List.mem_append.mp hm' with hm' | hm'
          · exact h.inqueue m' hm'
          · rw [List.mem_singleton.mp hm', hmport]
            exact hlt
        · obtain ⟨e, d, hlink⟩ := h.link j g hj
          refine ⟨e, d, hlink.frame ⟨rfl, rfl, id, id, fun e d ms ↦ ?_⟩⟩
          -- the packet moves from the air to the queue
          rw [BridgeState.view, BridgeState.view]
          congr 1
          by_cases hjp : p.1 = j
          · rw [onLink_concat_self (hmport.trans hjp), onLink_cons_self hjp, hdata,
              List.append_assoc, List.singleton_append, List.cons_append]
          · rw [onLink_concat_ne (hmport ▸ hjp), onLink_cons_ne hjp]
      · rw [hpush]
        exact h.lose hair (hroom.resolve_left hfull)

/-- The next message goes into its decoder. -/
theorem decode (h : LossyInv b L reads took got written pkts s)
    (hdecode : Bridge.decode s = .ok s') :
    LossyInv b L reads took (fun i ↦ got i ++ decodes i s (.thread .decode)) written pkts s' := by
  rw [Bridge.decode] at hdecode
  cases hdecoding : s.decoding with
  | some i =>
      simp only [hdecoding] at hdecode
      simp only [decodes, hdecoding, List.append_nil]
      exact Except.ok.inj hdecode ▸ h
  | none =>
      cases hqueue : s.inqueue.queue with
      | nil =>
          simp only [hdecoding, SharedQueue.tryPop, hqueue] at hdecode
          simp only [decodes, hdecoding, hqueue, List.append_nil]
          exact Except.ok.inj hdecode ▸ h
      | cons m rest =>
          have hlt := h.inqueue m (hqueue ▸ List.mem_cons_self)
          simp only [decodes, hdecoding, hqueue, decoderIdx_of_lt hlt, Option.some.injEq]
          obtain ⟨g, hg⟩ := Bridge.Inv.exists_section hlt
          obtain ⟨e, d, hlink⟩ := h.link m.port g hg
          have hnone : ∀ j, s.decoding ≠ some j := by
            intro j
            rw [hdecoding]
            exact Option.some_ne_none j ∘ Eq.symm
          have hout : d.outBlocks = [] := hlink.decoding (hnone _)
          have hdrain : d.drain = d := by
            rw [FECDecoder.drain, ← hout]
          simp only [hdecoding, SharedQueue.tryPop, hqueue, decoderIdx_of_lt hlt,
            readAt_eq_ok.mpr hlink.decoder, ok_bind] at hdecode
          obtain ⟨d', hadd, hs'⟩ := bind_eq_ok.mp hdecode
          obtain rfl := Except.ok.inj hs'
          have hpipe := hlink.pipe.decode m.data
            (by rw [BridgeState.view, hqueue, onLink_cons_self rfl, List.cons_append])
            d'.outBlocks d'.drain
            (by
              rw [BridgeState.view, hdrain, FECDecoder.deliver, hadd]
              rfl)
          have hself : (s.decoders.set m.port d')[m.port]? = some d' :=
            List.getElem?_set_self (List.getElem?_eq_some_iff.mp hlink.decoder).1
          refine ⟨h.outqueue_keeps, h.inqueue_keeps, h.sendQueue_keeps, h.queued, h.sending, h.air,
            h.packets, ?_, ?_, h.forall_link hg ⟨e, d', hlink.encoder, hself, hlink.fits,
              hlink.sending, fun hne ↦ absurd rfl hne, ?_⟩ ?_ (fun _ _ _ _ ↦ rfl) ?_⟩
          · exact fun m' hm' ↦ h.inqueue m' (hqueue ▸ List.mem_cons_of_mem _ hm')
          · intro i hi
            obtain rfl := Option.some.inj hi
            exact hlt
          · rw [hout, List.nil_append] at hpipe
            rw [if_pos rfl]
            exact hpipe
          · intro j hji
            rw [if_neg (Ne.symm hji), List.append_nil]
            exact ⟨rfl, rfl⟩
          · intro j hji
            refine ⟨rfl, List.getElem?_set_ne (Ne.symm hji), id, fun _ ↦ hnone j, fun e d ms ↦ ?_⟩
            rw [BridgeState.view, BridgeState.view, hqueue, onLink_cons_ne (Ne.symm hji)]

/-- The next block of the decoder is passed on. -/
theorem finish (h : LossyInv b L reads took got written pkts s)
    (hroom : s.sendQueue.size < s.sendQueue.maxSize ∨ L.outputs)
    (hfinish : Bridge.finish s = .ok s') :
    LossyInv b L reads took got written pkts s' := by
  rw [Bridge.finish] at hfinish
  cases hdecoding : s.decoding with
  | none =>
      simp only [hdecoding] at hfinish
      exact Except.ok.inj hfinish ▸ h
  | some i =>
      have hlt := h.decoding i hdecoding
      obtain ⟨g, hg⟩ := Bridge.Inv.exists_section hlt
      obtain ⟨e, d, hlink⟩ := h.link i g hg
      have hidle : ∀ j, j ≠ i → s.decoding ≠ some j := by
        intro j hji
        rw [hdecoding]
        exact fun heq ↦ hji (Option.some.inj heq).symm
      simp only [hdecoding, readAt_eq_ok.mpr hlink.decoder, ok_bind] at hfinish
      cases hout : d.outBlocks with
      | nil =>
          have hget : d.getBlock = (none, d) := by rw [FECDecoder.getBlock, hout]
          rw [hget] at hfinish
          obtain rfl := Except.ok.inj hfinish
          refine ⟨h.outqueue_keeps, h.inqueue_keeps, h.sendQueue_keeps, h.queued, h.sending, h.air,
            h.packets, h.inqueue, by simp, fun j g' hj ↦ ?_⟩
          obtain ⟨e₂, d₂, hlink₂⟩ := h.link j g' hj
          have hout₂ : d₂.outBlocks = [] := by
            by_cases hji : j = i
            · subst hji
              rwa [Option.some.inj (hlink₂.decoder.symm.trans hlink.decoder)]
            · exact hlink₂.decoding (hidle j hji)
          exact ⟨e₂, d₂, hlink₂.encoder, hlink₂.decoder, hlink₂.fits, hlink₂.sending, fun _ ↦ hout₂,
            hlink₂.pipe⟩
      | cons block rest =>
          have hget : d.getBlock = (some block.1, { d with outBlocks := rest }) := by
            rw [FECDecoder.getBlock, hout]
          have hself : (s.decoders.set i { d with outBlocks := rest })[i]? =
              some { d with outBlocks := rest } :=
            List.getElem?_set_self (List.getElem?_eq_some_iff.mp hlink.decoder).1
          have hpipe := hlink.pipe
          rw [hout] at hpipe
          rw [hget] at hfinish
          by_cases hlength : 0 < block.1.length
          · cases hpayload : block.1.payload with
            | none => simp [hlength, hpayload] at hfinish
            | some pkt =>
                simp only [if_pos hlength, hpayload] at hfinish
                obtain rfl := Except.ok.inj hfinish
                rcases SharedQueue.push_of_keeps h.sendQueue_keeps (i, pkt)
                  with hpush | ⟨hfull, hpush⟩
                · rw [hpush]
                  refine ⟨h.outqueue_keeps, h.inqueue_keeps, h.sendQueue_keeps, h.queued, h.sending,
                    h.air, h.packets, h.inqueue, hdecoding ▸ h.decoding,
                    h.forall_link hg ⟨e, { d with outBlocks := rest }, hlink.encoder, hself,
                      hlink.fits, hlink.sending, fun hne ↦ absurd rfl hne,
                      ?_⟩ (fun _ _ ↦ ⟨rfl, rfl⟩)
              (fun _ _ _ _ ↦ rfl) ?_⟩
                  · have hpkt : onLink Prod.fst Prod.snd i (s.sendQueue.queue ++ [(i, pkt)]) =
                        onLink Prod.fst Prod.snd i s.sendQueue.queue ++ [pkt] :=
                          onLink_concat_self rfl
                    rw [BridgeState.view, List.append_nil] at hpipe
                    rw [BridgeState.view, hpkt, List.append_nil]
                    exact hpipe.pass hlength hpayload
                  · intro j hji
                    have hpkt : onLink Prod.fst Prod.snd j (s.sendQueue.queue ++ [(i, pkt)]) =
                        onLink Prod.fst Prod.snd j s.sendQueue.queue :=
                          onLink_concat_ne (Ne.symm hji)
                    refine ⟨rfl, List.getElem?_set_ne (Ne.symm hji), id, fun _ ↦ hidle j hji,
                      fun e d ms ↦ ?_⟩
                    rw [BridgeState.view, BridgeState.view, hpkt]
                · rw [hpush]
                  refine ⟨h.outqueue_keeps, h.inqueue_keeps, h.sendQueue_keeps, h.queued, h.sending,
                    h.air, h.packets, h.inqueue, hdecoding ▸ h.decoding,
                    h.forall_link hg ⟨e, { d with outBlocks := rest }, hlink.encoder, hself,
                      hlink.fits, hlink.sending, fun hne ↦ absurd rfl hne,
                      ?_⟩ (fun _ _ ↦ ⟨rfl, rfl⟩)
              (fun _ _ _ _ ↦ rfl) ?_⟩
                  · exact hpipe.lose_output hlength hpayload (hroom.resolve_left hfull)
                  · exact fun j hji ↦ ⟨rfl, List.getElem?_set_ne (Ne.symm hji), id,
                      fun _ ↦ hidle j hji, fun _ _ _ ↦ rfl⟩
          · simp only [if_neg hlength] at hfinish
            obtain rfl := Except.ok.inj hfinish
            refine ⟨h.outqueue_keeps, h.inqueue_keeps, h.sendQueue_keeps, h.queued, h.sending,
              h.air, h.packets, h.inqueue, hdecoding ▸ h.decoding,
              h.forall_link hg ⟨e, { d with outBlocks := rest }, hlink.encoder, hself, hlink.fits,
                hlink.sending, fun hne ↦ absurd rfl hne, hpipe.skip hlength⟩ (fun _ _ ↦ ⟨rfl, rfl⟩)
              (fun _ _ _ _ ↦ rfl) ?_⟩
            exact fun j hji ↦ ⟨rfl, List.getElem?_set_ne (Ne.symm hji), id, fun _ ↦ hidle j hji,
              fun _ _ _ ↦ rfl⟩

/-- The next packet is written. -/
theorem write (h : LossyInv b L reads took got written pkts s) :
    LossyInv b L reads took got (written ++ (Bridge.write s).1.toList) pkts (Bridge.write s).2 := by
  rw [Bridge.write, SharedQueue.tryPop]
  cases hqueue : s.sendQueue.queue with
  | nil =>
      rw [Option.toList_none, List.append_nil]
      exact h
  | cons p rest =>
      rw [Option.toList_some]
      refine ⟨h.outqueue_keeps, h.inqueue_keeps, h.sendQueue_keeps, h.queued, h.sending, h.air,
        h.packets, h.inqueue, h.decoding, fun j g hj ↦ ?_⟩
      obtain ⟨e, d, hlink⟩ := h.link j g hj
      have hpipe := hlink.pipe
      refine ⟨e, d, hlink.encoder, hlink.decoder, hlink.fits, hlink.sending, hlink.decoding, ?_⟩
      by_cases hji : p.1 = j
      · rw [onLink_concat_self hji]
        exact hpipe.write (by rw [BridgeState.view, hqueue, onLink_cons_self hji, List.cons_append])
      · rw [onLink_concat_ne hji]
        rw [BridgeState.view, hqueue, onLink_cons_ne hji] at hpipe
        exact hpipe

/-- A step in which nothing is read or written. -/
theorem silent {x : Except Fault BridgeState} {out : Option (ℕ × List UInt8)}
    (hstep : (do .ok (none, ← x) : Except Fault (Option (ℕ × List UInt8) × BridgeState)) =
      .ok (out, s')) (h : x = .ok s' → ∃ pkts', LossyInv b L reads took got written pkts' s') :
    ∃ pkts', LossyInv b L (reads ++ []) took got (written ++ out.toList) pkts' s' := by
  obtain ⟨t, ht, hout⟩ := bind_eq_ok.mp hstep
  obtain ⟨rfl, rfl⟩ := Prod.mk.inj (Except.ok.inj hout)
  rw [Option.toList_none, List.append_nil, List.append_nil]
  exact h ht

/-- Every step keeps the invariant. -/
theorem step (h : LossyInv b L reads took got written pkts s)
    (hl : l.Configured b.blocksize b.links) {op : LossyOp} (hallows : L.Allows s op)
    {out : Option (ℕ × List UInt8)} (hstep : (b.bridge l).lossyStep s op = .ok (out, s')) :
    ∃ pkts', LossyInv b L (reads ++ lossyReads [op]) (fun i ↦ took i ++ takes i s op)
      (fun i ↦ got i ++ decodes i s op) (written ++ out.toList) pkts' s' := by
  cases op with
  | lose =>
      obtain ⟨rfl, rfl⟩ := Prod.mk.inj (Except.ok.inj hstep)
      change ∃ pkts', LossyInv b L (reads ++ []) _ _ (written ++ []) pkts' _
      simp only [takes, decodes, List.append_nil]
      cases hair : s.air with
      | nil =>
          refine ⟨pkts, ?_⟩
          rw [List.tail_nil, ← hair]
          exact h
      | cons frame air => exact h.lose hair hallows
  | thread op =>
      cases op with
      | read pkt hne =>
          obtain ⟨rfl, rfl⟩ := Prod.mk.inj (Except.ok.inj hstep)
          refine ⟨pkts, ?_⟩
          simp only [takes, decodes, Option.toList_none, List.append_nil]
          exact h.read hl hne hallows
      | flush ipPort =>
          simp only [takes, decodes, List.append_nil]
          exact silent hstep fun hs ↦ ⟨pkts, h.flush hl hs⟩
      | take =>
          simp only [decodes, List.append_nil]
          exact silent hstep fun hs ↦ ⟨pkts, h.take hs⟩
      | transmit pad2 now =>
          simp only [takes, decodes, List.append_nil]
          exact silent hstep fun hs ↦ h.transmit hs
      | receive rt fcs curTime =>
          simp only [takes, decodes, List.append_nil]
          exact silent hstep fun hs ↦ h.receive hallows hs
      | decode =>
          simp only [takes, List.append_nil]
          exact silent hstep fun hs ↦ ⟨pkts, h.decode hs⟩
      | finish =>
          simp only [takes, decodes, List.append_nil]
          exact silent hstep fun hs ↦ ⟨pkts, h.finish hallows hs⟩
      | write =>
          obtain ⟨hout, rfl⟩ := Prod.mk.inj (Except.ok.inj hstep)
          refine ⟨pkts, ?_⟩
          change LossyInv b L (reads ++ []) _ _ _ _ _
          simp only [takes, decodes, List.append_nil, ← hout]
          exact h.write

end Bridge.LossyInv

end WfbBridge
