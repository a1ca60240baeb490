import Mathlib
import WfbBridge.Bridge.Rest
import WfbBridge.Library.Settle

/-!
# What is read is written in the end

A schedule is an infinite sequence of steps.  When nothing is read any more the threads come to rest
under every schedule, and under a fair one, which gives each of them its turn again and again,
nothing is left on the way.  So a bridge on which no packet is lost delivers all of them.
-/

namespace WfbBridge

open Checked

namespace Bridge

/-! ## The step that helps -/

/-- What has to be done by a step of a kind, when that kind helps. -/
def Helpful (c : Bridge) (s : BridgeState) : Kind → Prop
  | .read => False
  | .flush ipPort => s.outqueue.queue = [] ∧
      ∃ m, (ipPort, m) ∈ c.portMsgLut ∧ unflushed s.encoders m.enc = true
  | .take => s.sending = none ∧ s.outqueue.queue ≠ []
  | .transmit => s.sending ≠ none
  | .air => s.air ≠ []
  | .decode => s.decoding = none ∧ s.inqueue.queue ≠ []
  | .finish => s.decoding ≠ none
  | .write => s.sending = none ∧ s.outqueue.queue = [] ∧
      (∀ entry ∈ c.portMsgLut, unflushed s.encoders entry.2.enc = false) ∧ s.air = [] ∧
      s.decoding = none ∧ s.inqueue.queue = []

theorem helpful_helps (c : Bridge) (s : BridgeState) : c.Helpful s (c.helps s) := by
  rw [helps]
  by_cases hsending : s.sending = none
  · rw [if_neg (by simp [hsending])]
    by_cases hqueue : s.outqueue.queue = []
    · rw [if_neg (not_not.mpr hqueue)]
      cases hfind : c.portMsgLut.find? fun entry ↦ unflushed s.encoders entry.2.enc with
      | some entry =>
          have hunflushed :=
            List.find?_some (p := fun entry : ℕ × Message ↦ unflushed s.encoders entry.2.enc) hfind
          exact ⟨hqueue, entry.2, List.mem_of_find?_eq_some hfind, hunflushed⟩
      | none =>
          have hflushed : ∀ entry ∈ c.portMsgLut, unflushed s.encoders entry.2.enc = false := by
            simpa using hfind
          by_cases hair : s.air = []
          · simp only [if_neg (not_not.mpr hair)]
            by_cases hdecoding : s.decoding = none
            · rw [if_neg (by simp [hdecoding])]
              by_cases hinqueue : s.inqueue.queue = []
              · rw [if_neg (not_not.mpr hinqueue)]
                exact ⟨hsending, hqueue, hflushed, hair, hdecoding, hinqueue⟩
              · rw [if_pos hinqueue]
                exact ⟨hdecoding, hinqueue⟩
            · rw [if_pos (Option.isSome_iff_ne_none.mpr hdecoding)]
              exact hdecoding
          · simp only [if_pos hair]
            exact hair
    · rw [if_pos hqueue]
      exact ⟨hsending, hqueue⟩
  · rw [if_pos (Option.isSome_iff_ne_none.mpr hsending)]
    exact hsending

variable {b : BridgeConfig} {L : Losses} {l : Links} {reads : List (List UInt8)}
  {took got : ℕ → List (List UInt8)} {written pkts : List (ℕ × List UInt8)} {s s' : BridgeState}
  {out : Option (ℕ × List UInt8)}

/-- The entry of a link in the table. -/
theorem find_of_mem (hl : l.Configured b.blocksize b.links) {ipPort : ℕ} {m : Message}
    (hm : (ipPort, m) ∈ l.portMsgLut) : SortedMap.find ipPort l.portMsgLut = some m := by
  obtain ⟨i, g, hg, hport, hproto⟩ := hl.mem_lut _ hm
  change ipPort = g.ipPort at hport
  change m = _ at hproto
  rw [hport, hproto]
  exact hl.find_lut b.nodup i g hg

/-- If the encoders in the table are flushed, all are. -/
theorem Served.flushed (h : Served b s) (hl : l.Configured b.blocksize b.links)
    (hflushed : ∀ entry ∈ l.portMsgLut, Bridge.unflushed s.encoders entry.2.enc = false) :
    ∀ e ∈ s.encoders, e.isFlushed = true := by
  intro e he
  obtain ⟨i, hi⟩ := List.mem_iff_getElem?.mp he
  have hlt := (List.getElem?_eq_some_iff.mp hi).1
  rw [h.encoders] at hlt
  have hentry :=
    hflushed _ (SortedMap.mem_of_find (hl.find_lut b.nodup i _ (List.getElem?_eq_getElem hlt)))
  change Bridge.unflushed s.encoders i = false at hentry
  rw [unflushed_of_getElem? hi] at hentry
  simpa using hentry

/-- A step with a result and no output. -/
theorem of_silent {x : Except Fault BridgeState}
    (hstep : (do .ok (none, ← x) : Except Fault (Option (ℕ × List UInt8) × BridgeState)) =
      .ok (out, s')) :
    x = .ok s' := by
  obtain ⟨t, ht, hout⟩ := bind_eq_ok.mp hstep
  obtain ⟨-, rfl⟩ := Prod.mk.inj (Except.ok.inj hout)
  exact ht

/-- When nothing is left on the way, nothing changes until the next packet is read. -/
theorem Drained.step {c : Bridge} (hs : Drained s) {op : LossyOp} (hread : op.kind ≠ .read)
    (hstep : c.lossyStep s op = .ok (out, s')) : s' = s := by
  cases op with
  | lose =>
      obtain ⟨-, rfl⟩ := Prod.mk.inj (Except.ok.inj hstep)
      rw [hs.air, List.tail_nil, ← hs.air]
  | thread op =>
      cases op with
      | read pkt hne => exact absurd rfl hread
      | flush ipPort =>
          rcases flush_cases (of_silent hstep) with ⟨rfl, -⟩ | ⟨m, -, hunflushed, -⟩
          · rfl
          · rw [unflushed, Option.any_eq_true] at hunflushed
            obtain ⟨e, he, hopen⟩ := hunflushed
            rw [hs.encoders e (List.mem_of_getElem? he)] at hopen
            cases hopen
      | take =>
          rcases take_cases (of_silent hstep) with ⟨rfl, -⟩ | ⟨m, rest, e, e', -, hqueue, -⟩
          · rfl
          · rw [hs.outqueue] at hqueue
            cases hqueue
      | transmit pad2 now =>
          rcases transmit_cases (of_silent hstep) with ⟨rfl, -⟩ | ⟨m, e, hsending, -⟩ |
            ⟨m, e, block, rest, air, hsending, -⟩
          · rfl
          · rw [hs.sending] at hsending
            cases hsending
          · rw [hs.sending] at hsending
            cases hsending
      | receive rt fcs curTime =>
          rcases receive_cases (of_silent hstep) with ⟨rfl, -⟩ | ⟨frame, air, inqueue, hair, -⟩
          · rfl
          · rw [hs.air] at hair
            cases hair
      | decode =>
          rcases decode_cases (of_silent hstep) with ⟨rfl, -⟩ |
            ⟨m, rest, decoders, decoding, hqueue, -⟩
          · rfl
          · rw [hs.inqueue] at hqueue
            cases hqueue
      | finish =>
          rcases finish_cases (of_silent hstep) with ⟨rfl, -⟩ | ⟨i, hdecoding, -⟩ |
            ⟨i, d, block, rest, sendQueue, hdecoding, -⟩
          · rfl
          · rw [hs.decoding] at hdecoding
            cases hdecoding
          · rw [hs.decoding] at hdecoding
            cases hdecoding
      | write =>
          obtain ⟨-, rfl⟩ := Prod.mk.inj (Except.ok.inj hstep)
          have hpop : s.sendQueue.tryPop = (none, s.sendQueue) := by
            rw [SharedQueue.tryPop, hs.sendQueue]
          change { s with sendQueue := s.sendQueue.tryPop.2 } = s
          rw [hpop]

namespace LossyInv

/-- A flush that is put into a full queue, or into one where it is of no use. -/
theorem settles_flush (h : LossyInv b L reads took got written pkts s) (hserved : Served b s)
    (hl : l.Configured b.blocksize b.links) {ipPort : ℕ}
    (hflush : (b.bridge l).flush s ipPort = .ok s') :
    s' = s ∧ ¬(b.bridge l).Helpful s (.flush ipPort) ∨ rank s' < rank s := by
  rcases flush_cases hflush with ⟨rfl, hflushed⟩ | ⟨m, hm, hunflushed, rfl⟩
  · refine .inl ⟨rfl, ?_⟩
    rintro ⟨-, m, hm, hunflushed⟩
    rw [hflushed m (find_of_mem hl hm)] at hunflushed
    cases hunflushed
  · rcases s.outqueue.push_cases m with ⟨hlt, hpush⟩ | ⟨hfull, -, hpush⟩ | ⟨-, hclear, -⟩
    · right
      rw [hpush]
      exact rank_push hm hunflushed hlt
    · rw [hpush]
      refine .inl ⟨rfl, ?_⟩
      rintro ⟨hqueue, -⟩
      -- the encoder has got a message out of this queue
      obtain ⟨e, he, hopen⟩ : ∃ e, s.encoders[m.enc]? = some e ∧ e.isFlushed = false := by
        rw [unflushed, Option.any_eq_true] at hunflushed
        obtain ⟨e, he, hopen⟩ := hunflushed
        exact ⟨e, he, by simpa using hopen⟩
      have hpos := hserved.unflushed e (List.mem_of_getElem? he) hopen
      rw [hqueue, List.length_nil] at hfull
      omega
    · rw [h.outqueue_keeps] at hclear
      cases hclear

/-- A message that goes into its encoder leaves it flushed, if it is a flush. -/
theorem settles_take {c : Bridge} (h : LossyInv b L reads took got written pkts s)
    (htake : Bridge.take s = .ok s') :
    s' = s ∧ ¬c.Helpful s .take ∨ rank s' < rank s := by
  rcases take_cases htake with ⟨rfl, hidle⟩ | ⟨m, rest, e, e', hsending, hqueue, he, hhandle, rfl⟩
  · refine .inl ⟨rfl, ?_⟩
    rintro ⟨hsending, hqueue⟩
    rcases hidle with hidle | hidle
    · rw [hsending] at hidle
      cases hidle
    · exact hqueue hidle
  · refine .inr (rank_take hqueue he fun hempty ↦ ?_)
    obtain ⟨g, hg⟩ := Bridge.Inv.exists_section (h.queued m (hqueue ▸ List.mem_cons_self)).1
    obtain ⟨e₀, d, hlink⟩ := h.link m.enc g hg
    obtain rfl := Option.some.inj (hlink.encoder.symm.trans he)
    have hout : e₀.outBlocks = [] := by
      refine hlink.sending ?_
      rw [hsending]
      exact Option.some_ne_none _ ∘ Eq.symm
    have hdrain : e₀.drain = e₀ := by
      rw [FECEncoder.drain, ← hout]
    obtain ⟨emitted, outs, passed, hpipe⟩ := hlink.pipe
    have hchannel := LinkView.Pipe.channel hpipe.encoded
    rw [BridgeState.view, hdrain] at hchannel
    rw [FECEncoder.handle, if_pos hempty] at hhandle
    exact hchannel.isFlushed_flush hhandle

/-- Every step but a read changes nothing or lowers the rank, and it changes something if it is of
the kind that helps. -/
theorem settles (h : LossyInv b L reads took got written pkts s) (hserved : Served b s)
    (hl : l.Configured b.blocksize b.links) {op : LossyOp} (hread : op.kind ≠ .read)
    (hstep : (b.bridge l).lossyStep s op = .ok (out, s')) :
    s' = s ∧ ((b.bridge l).Helpful s op.kind → Drained s) ∨ rank s' < rank s := by
  cases op with
  | lose =>
      obtain ⟨-, rfl⟩ := Prod.mk.inj (Except.ok.inj hstep)
      cases hair : s.air with
      | nil =>
          refine .inl ⟨?_, fun hne ↦ absurd hair hne⟩
          rw [List.tail_nil, ← hair]
      | cons frame air => exact .inr (rank_air hair s.inqueue)
  | thread op =>
      cases op with
      | read pkt hne => exact absurd rfl hread
      | flush ipPort =>
          exact (h.settles_flush hserved hl (of_silent hstep)).imp_left
            (And.imp_right fun hidle hhelp ↦ absurd hhelp hidle)
      | take =>
          exact (h.settles_take (of_silent hstep)).imp_left
            (And.imp_right fun hidle hhelp ↦ absurd hhelp hidle)
      | transmit pad2 now =>
          exact (rank_transmit (of_silent hstep)).imp_left
            (And.imp_right fun hidle hhelp ↦ absurd hidle hhelp)
      | receive rt fcs curTime =>
          rcases receive_cases (of_silent hstep) with ⟨rfl, hair⟩ | ⟨frame, air, inqueue, hair, rfl⟩
          · exact .inl ⟨rfl, fun hne ↦ absurd hair hne⟩
          · exact .inr (rank_air hair inqueue)
      | decode =>
          refine (rank_decode (of_silent hstep)).imp_left (And.imp_right fun hidle hhelp ↦ ?_)
          obtain ⟨hdecoding, hqueue⟩ := hhelp
          rcases hidle with hidle | hidle
          · rw [hdecoding] at hidle
            cases hidle
          · exact absurd hidle hqueue
      | finish =>
          exact (rank_finish (of_silent hstep)).imp_left
            (And.imp_right fun hidle hhelp ↦ absurd hidle hhelp)
      | write =>
          obtain ⟨-, rfl⟩ := Prod.mk.inj (Except.ok.inj hstep)
          refine (rank_write s).imp_left (And.imp_right fun hidle hhelp ↦ ?_)
          obtain ⟨hsending, hqueue, hflushed, hair, hdecoding, hinqueue⟩ := hhelp
          exact ⟨hqueue, hserved.flushed hl hflushed, hsending, hair, hinqueue, hdecoding, hidle⟩

end LossyInv

end Bridge

namespace BridgeConfig

/-- The first `n` steps of a schedule. -/
def firstSteps (ops : ℕ → Bridge.LossyOp) (n : ℕ) : List Bridge.LossyOp := (List.range n).map ops

theorem firstSteps_succ (ops : ℕ → Bridge.LossyOp) (n : ℕ) :
    firstSteps ops (n + 1) = firstSteps ops n ++ [ops n] := by
  rw [firstSteps, List.range_succ, List.map_append]
  rfl

/-- Each thread gets its turn again and again, and so does each entry of the table in the loop that
flushes the encoders. -/
structure Fair (b : BridgeConfig) (ops : ℕ → Bridge.LossyOp) : Prop where
  threads : ∀ k ∈ [Bridge.Kind.take, .transmit, .air, .decode, .finish, .write],
    ∀ n, ∃ m ≥ n, (ops m).kind = k
  flush : ∀ g ∈ b.links, ∀ n, ∃ m ≥ n, (ops m).kind = .flush g.ipPort

variable {b : BridgeConfig} {L : Losses} {ops : ℕ → Bridge.LossyOp} {start : ℕ}

/-- The kind of step that helps is taken. -/
theorem Fair.exists_help (h : b.Fair ops) {l : Links} (hl : l.Configured b.blocksize b.links)
    (s : BridgeState) (n : ℕ) : ∃ m ≥ n, (ops m).kind = (b.bridge l).helps s := by
  have hhelp := (b.bridge l).helpful_helps s
  cases hkind : (b.bridge l).helps s with
  | read =>
      rw [hkind] at hhelp
      exact hhelp.elim
  | flush ipPort =>
      rw [hkind] at hhelp
      obtain ⟨-, m, hm, -⟩ := hhelp
      obtain ⟨i, g, hg, hport, -⟩ := hl.mem_lut _ hm
      obtain rfl : ipPort = g.ipPort := hport
      exact h.flush g (List.mem_of_getElem? hg) n
  | take | transmit | air | decode | finish | write => exact h.threads _ (by simp) n

/-- The last step of a run. -/
theorem lossyRun_concat {pre : List Bridge.LossyOp} {op : Bridge.LossyOp} {l : Links}
    (hconf : Links.configure b.blocksize b.sections = .ok l) {outs : List (Option (ℕ × List UInt8))}
    {s' : BridgeState} (hrun : b.lossyRun (pre ++ [op]) = .ok (outs, s')) :
    ∃ outs₁ s out, b.lossyRun pre = .ok (outs₁, s) ∧
      (b.bridge l).lossyStep s op = .ok (out, s') := by
  simp only [lossyRun, hconf, ok_bind] at hrun ⊢
  obtain ⟨outs₁, s, outs₂, hpre, hlast, -⟩ := Run.run_append_eq_ok.mp hrun
  obtain ⟨out, t, _, hstep, hnil, -⟩ := Run.run_cons_eq_ok.mp hlast
  obtain ⟨-, rfl⟩ := Prod.mk.inj (Except.ok.inj hnil)
  exact ⟨outs₁, s, out, hpre, hstep⟩

theorem served_of_run {l : Links} (hconf : Links.configure b.blocksize b.sections = .ok l)
    (hl : l.Configured b.blocksize b.links) {pre : List Bridge.LossyOp}
    {outs : List (Option (ℕ × List UInt8))} {s : BridgeState}
    (hrun : b.lossyRun pre = .ok (outs, s)) :
    Bridge.Served b s := by
  simp only [lossyRun, hconf, ok_bind] at hrun
  exact Run.inv_of_run (P := fun _ s ↦ Bridge.Served b s) (.start hl)
    (fun _ _ _ _ _ _ h hstep ↦ h.step hstep) hrun

/-- A schedule under which the threads get through comes to rest when nothing is read any more. -/
theorem settles (hallows : ∀ n, b.Allows L (firstSteps ops n))
    (hrun : ∀ n, ∃ outs s, b.lossyRun (firstSteps ops n) = .ok (outs, s))
    (hquiet : ∀ n ≥ start, (ops n).kind ≠ .read) :
    ∃ stop s, (∀ n ≥ stop, ∃ outs, b.lossyRun (firstSteps ops n) = .ok (outs, s)) ∧
      (b.Fair ops → Bridge.Drained s) := by
  obtain ⟨l, hconf, hl⟩ := b.exists_configured
  choose outs path hpath using hrun
  have hsettles : ∀ n ≥ start, path (n + 1) = path n ∧
      ((b.bridge l).Helpful (path n) (ops n).kind → Bridge.Drained (path n)) ∨
        Bridge.rank (path (n + 1)) < Bridge.rank (path n) := by
    intro n hn
    obtain ⟨pkts, h⟩ := lossyInv_of_run (hallows n) (hpath n)
    have hsucc := hpath (n + 1)
    rw [firstSteps_succ] at hsucc
    obtain ⟨outs₁, s, out, hpre, hstep⟩ := lossyRun_concat hconf hsucc
    obtain ⟨-, rfl⟩ := Prod.mk.inj (Except.ok.inj (hpre.symm.trans (hpath n)))
    exact h.settles (served_of_run hconf hl (hpath n)) hl (hquiet n hn) hstep
  obtain ⟨stop, hstop, hconst⟩ := Settle.eventually_const Bridge.rank
    fun n hn ↦ (hsettles n hn).imp_left And.left
  refine ⟨stop, path stop, fun n hn ↦ ⟨outs n, hconst n hn ▸ hpath n⟩, fun hfair ↦ ?_⟩
  refine Settle.goal_of_const (fun n ↦ (ops n).kind) hconst (fun n hn heq hkind ↦ ?_)
    (hfair.exists_help hl (path stop) stop)
  rcases hsettles n (hstop.trans hn) with ⟨-, hdrained⟩ | hlt
  · refine hdrained ?_
    rw [hkind]
    exact (b.bridge l).helpful_helps (path n)
  · rw [heq] at hlt
    exact absurd hlt (lt_irrefl _)

/-- When nothing is read any more, the threads come to rest under every schedule, whatever is lost
on links without FEC, and whatever blocks are withheld on links with it; and nothing is left on the
way if the schedule is fair. -/
theorem threads_come_to_rest (hallows : ∀ n, b.Allows L (firstSteps ops n))
    (hlinks : L.frames = false ∨ ∀ g ∈ b.links, g.nblocks = 0 ∨ g.nfecBlocks = 0)
    (hfit : ∀ n, ∀ pkt ∈ Bridge.lossyReads (firstSteps ops n), pkt.length + 2 ≤ b.blocksize)
    (hquiet : ∀ n ≥ start, (ops n).kind ≠ .read) :
    ∃ stop s, (∀ n ≥ stop, ∃ outs, b.lossyRun (firstSteps ops n) = .ok (outs, s)) ∧
      (b.Fair ops → Bridge.Drained s) := by
  refine settles hallows (fun n ↦ b.lossyRun_ok (hallows n) (hfit n) fun g hg ↦ ?_) hquiet
  rcases hlinks with hframes | hoff
  · exact (b.link g hg).decodes_withheld hframes
  · exact Link.FecOff.decodes (l := b.link g hg) (hoff g hg) _

/-- What is read is written in the end: under a fair schedule that loses nothing but FEC blocks that
are withheld, each link that numbers its blocks has written all that it was given, some time after
the last read. -/
theorem delivers_in_the_end (hallows : ∀ n, b.Allows ⟨false, false, false⟩ (firstSteps ops n))
    (hfit : ∀ n, ∀ pkt ∈ Bridge.lossyReads (firstSteps ops n), pkt.length + 2 ≤ b.blocksize)
    (hquiet : ∀ n ≥ start, (ops n).kind ≠ .read) (hfair : b.Fair ops) :
    ∃ stop, ∀ n ≥ stop, ∃ outs s, b.lossyRun (firstSteps ops n) = .ok (outs, s) ∧
      ∀ (i : ℕ) (g : Section), b.links[i]? = some g → u8 g.nblocks ≠ 0 →
        Bridge.written i outs = b.readsOf g (Bridge.lossyReads (firstSteps ops n)) := by
  obtain ⟨stop, s, hrest, hdrained⟩ := settles hallows
    (fun n ↦ b.lossyRun_ok (hallows n) (hfit n) fun g hg ↦ (b.link g hg).decodes_withheld rfl)
      hquiet
  refine ⟨stop, fun n hn ↦ ?_⟩
  obtain ⟨outs, hrun⟩ := hrest n hn
  refine ⟨outs, s, hrun, fun i g hg hblocks ↦ ?_⟩
  obtain ⟨pkts, h⟩ := lossyInv_of_run (hallows n) hrun
  obtain ⟨e, d, hlink⟩ := h.link i g hg
  obtain ⟨-, hdone⟩ := hlink.pipe.prefix_of_withheld rfl rfl rfl hblocks
  exact hdone (h.still (hdrained hfair) hlink)

/-- One link, with two data blocks and an FEC block in a sequence. -/
def oneLink : BridgeConfig where
  sections := [{ group := "link-a", blocks := 2, fec := 1 }]
  socket := { ground := true, mtu := 72 }
  maxQueueSize := 10

/-- A turn of each thread. -/
def oneLinkTurns : List Bridge.LossyOp :=
  ([.flush 0, .take, .transmit 0 0, .receive [0, 0, 8, 0, 0, 0, 0, 0] [0, 0, 0, 0] 0, .decode,
    .finish, .write] : List Bridge.Op).map .thread

/-- A packet is read, and the threads take turns. -/
def oneLinkSchedule (n : ℕ) : Bridge.LossyOp :=
  if n = 0 then .thread (.read [5] (by decide)) else oneLinkTurns.getD (n % 7) .lose

theorem oneLinkSchedule_eq {n : ℕ} (hn : 1 ≤ n) :
    oneLinkSchedule n = oneLinkTurns.getD (n % 7) .lose := if_neg (Nat.one_le_iff_ne_zero.mp hn)

theorem turn_oneLinkSchedule {n : ℕ} (hn : 1 ≤ n) : oneLinkSchedule n ∈ oneLinkTurns := by
  rw [oneLinkSchedule_eq hn, List.getD_eq_getElem?_getD,
    List.getElem?_eq_getElem (show n % 7 < oneLinkTurns.length from Nat.mod_lt _ (by decide))]
  exact List.getElem_mem _

theorem kind_ne_read {op : Bridge.LossyOp} (hop : op ∈ oneLinkTurns) : op.kind ≠ .read := by
  revert op
  simp [oneLinkTurns, Bridge.LossyOp.kind]

theorem fair_oneLinkSchedule : oneLink.Fair oneLinkSchedule := by
  have hturn : ∀ i < 7, ∀ n, ∃ m ≥ n,
      (oneLinkSchedule m).kind = (oneLinkTurns.getD i .lose).kind := by
    intro i hi n
    refine ⟨7 * n + 7 + i, by omega, ?_⟩
    rw [oneLinkSchedule_eq (by omega)]
    congr 2
    omega
  constructor
  · intro k hk
    obtain ⟨i, hi, rfl⟩ : ∃ i < 7, (oneLinkTurns.getD i .lose).kind = k := by
      revert k
      decide
    exact hturn i hi
  · intro g hg
    obtain rfl := List.mem_singleton.mp hg
    exact hturn 0 (by decide)

theorem allows_oneLinkTurns {s : BridgeState} (hs : Bridge.Drained s) (hin : 0 < s.inqueue.maxSize)
    (hsend : 0 < s.sendQueue.maxSize) :
    ∀ op ∈ oneLinkTurns, Losses.Allows ⟨false, false, false⟩ s op := by
  simp only [oneLinkTurns, List.map_cons, List.map_nil, List.forall_mem_cons]
  refine ⟨trivial, trivial, trivial, ⟨.inl ?_, by decide, rfl, by simp [hs.air]⟩, trivial, .inl ?_,
    trivial, List.forall_mem_nil _⟩
  · rwa [SharedQueue.size, hs.inqueue]
  · rwa [SharedQueue.size, hs.sendQueue]

/-- From the twenty-eighth step on nothing is left on the way. -/
theorem drained_oneLinkSchedule {n : ℕ} (hn : 28 ≤ n) :
    oneLink.Allows ⟨false, false, false⟩ (firstSteps oneLinkSchedule n) ∧
      ∀ outs s, oneLink.lossyRun (firstSteps oneLinkSchedule n) = .ok (outs, s) →
        Bridge.Drained s ∧ 0 < s.inqueue.maxSize ∧ 0 < s.sendQueue.maxSize := by
  induction n, hn using Nat.le_induction with
  | base =>
      have hdrained : (oneLink.lossyRun (firstSteps oneLinkSchedule 28)).toOption.all (fun r ↦
          Bridge.Drained r.2 ∧ 0 < r.2.inqueue.maxSize ∧ 0 < r.2.sendQueue.maxSize) = true := by
        decide +kernel
      refine ⟨by decide +kernel, fun outs s hrun ↦ ?_⟩
      rw [hrun] at hdrained
      exact of_decide_eq_true hdrained
  | succ n hn ih =>
      obtain ⟨hallows, hrest⟩ := ih
      have hturn := turn_oneLinkSchedule ((by decide : 1 ≤ 28).trans hn)
      rw [firstSteps_succ]
      constructor
      · intro l hconf
        refine Run.along_append.mpr ⟨hallows l hconf, fun outs s hrun ↦ ⟨?_, fun _ _ _ ↦ trivial⟩⟩
        obtain ⟨hs, hin, hsend⟩ := hrest outs s (by rw [lossyRun, hconf]; exact hrun)
        exact allows_oneLinkTurns hs hin hsend _ hturn
      · intro outs s' hrun
        obtain ⟨l, hconf, -⟩ := oneLink.exists_configured
        obtain ⟨outs₁, s, out, hpre, hstep⟩ := lossyRun_concat hconf hrun
        obtain ⟨hs, hin, hsend⟩ := hrest outs₁ s hpre
        rw [hs.step (kind_ne_read hturn) hstep]
        exact ⟨hs, hin, hsend⟩

theorem allows_oneLinkSchedule (n : ℕ) :
    oneLink.Allows ⟨false, false, false⟩ (firstSteps oneLinkSchedule n) := by
  rcases Nat.le_total 28 n with hn | hn
  · exact (drained_oneLinkSchedule hn).1
  · refine Nat.decreasingInduction' (P := fun n ↦ oneLink.Allows ⟨false, false, false⟩
      (firstSteps oneLinkSchedule n)) (fun m _ _ hallows l hconf ↦ ?_) hn
        (drained_oneLinkSchedule le_rfl).1
    have hsucc := hallows l hconf
    rw [firstSteps_succ] at hsucc
    exact (Run.along_append.mp hsucc).1

theorem lossyReads_oneLinkSchedule (n : ℕ) :
    Bridge.lossyReads (firstSteps oneLinkSchedule (n + 1)) = [[5]] := by
  induction n with
  | zero => rfl
  | succ n ih =>
      have hnone : ∀ op ∈ oneLinkTurns, Bridge.lossyReads [op] = [] := by
        simp [oneLinkTurns, Bridge.lossyReads, Bridge.reads]
      rw [firstSteps_succ, Bridge.lossyReads_append, ih,
        hnone _ (turn_oneLinkSchedule (Nat.succ_pos n)), List.append_nil]

theorem fits_oneLinkSchedule (n : ℕ) : ∀ pkt ∈ Bridge.lossyReads (firstSteps oneLinkSchedule n),
    pkt.length + 2 ≤ oneLink.blocksize := by
  cases n with
  | zero => exact List.forall_mem_nil _
  | succ n =>
      rw [lossyReads_oneLinkSchedule]
      decide

/-- The threads of one link come to rest. -/
theorem threads_come_to_rest_oneLink : ∃ stop s, Bridge.Drained s ∧ ∀ n ≥ stop, ∃ outs,
    oneLink.lossyRun (firstSteps oneLinkSchedule n) = .ok (outs, s) := by
  obtain ⟨stop, s, hrest, hdrained⟩ := threads_come_to_rest allows_oneLinkSchedule (.inl rfl)
    fits_oneLinkSchedule fun n hn ↦ kind_ne_read (turn_oneLinkSchedule hn)
  exact ⟨stop, s, hdrained fair_oneLinkSchedule, hrest⟩

/-- The packet is written. -/
theorem delivers_in_the_end_oneLink : ∃ stop, ∀ n ≥ stop, ∃ outs s,
    oneLink.lossyRun (firstSteps oneLinkSchedule n) = .ok (outs, s) ∧
      Bridge.written 0 outs = [[5]] := by
  obtain ⟨stop, hstop⟩ := delivers_in_the_end allows_oneLinkSchedule fits_oneLinkSchedule
    (fun n hn ↦ kind_ne_read (turn_oneLinkSchedule hn)) fair_oneLinkSchedule
  refine ⟨stop + 1, fun n hn ↦ ?_⟩
  obtain ⟨outs, s, hrun, hwritten⟩ := hstop n (Nat.le_of_succ_le hn)
  refine ⟨outs, s, hrun, ?_⟩
  obtain ⟨n, rfl⟩ := Nat.exists_eq_succ_of_ne_zero (Nat.ne_zero_of_lt hn)
  rw [hwritten 0 _ rfl (by decide), lossyReads_oneLinkSchedule]
  decide

end BridgeConfig

end WfbBridge
