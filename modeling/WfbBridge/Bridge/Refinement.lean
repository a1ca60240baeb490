import Mathlib
import WfbBridge.Bridge.Lossy

/-!
# What survives the losses

The runs of the bridge with losses.  Each link is a pipeline, whatever the threads do and whatever
is lost.  Without FEC the packets that are written are some of those that were read.  With FEC,
blocks that are withheld do no harm, and frames that are lost do none as long as each sequence keeps
enough of its packets.
-/

namespace WfbBridge

open Checked

theorem Bridge.lossyReads_append (ops ops' : List LossyOp) :
    lossyReads (ops ++ ops') = lossyReads ops ++ lossyReads ops' := by
  simp only [lossyReads, reads, List.filterMap_append]

namespace Bridge.LossyInv

variable {b : BridgeConfig} {L : Losses} {l : Links} {reads : List (List UInt8)}
  {took got : ℕ → List (List UInt8)} {written pkts : List (ℕ × List UInt8)} {s s' : BridgeState}

theorem reduceOption_cons {α : Type} (o : Option α) (os : List (Option α)) :
    (o :: os).reduceOption = o.toList ++ os.reduceOption := by
  cases o <;> rfl

/-- All steps keep the invariant. -/
theorem run (h : LossyInv b L reads took got written pkts s) (hl : l.Configured b.blocksize b.links)
    {ops : List LossyOp} (halong : Run.Along (b.bridge l).lossyStep L.Allows s ops)
    {outs : List (Option (ℕ × List UInt8))}
    (hrun : Run.run (b.bridge l).lossyStep s ops = .ok (outs, s')) :
    ∃ pkts', LossyInv b L (reads ++ lossyReads ops)
      (fun i ↦ took i ++ Run.observe (b.bridge l).lossyStep (takes i) s ops)
      (fun i ↦ got i ++ Run.observe (b.bridge l).lossyStep (decodes i) s ops)
      (written ++ outs.reduceOption) pkts' s' := by
  induction ops generalizing reads took got written pkts s outs with
  | nil =>
      obtain ⟨rfl, rfl⟩ := Prod.mk.inj (Except.ok.inj hrun)
      refine ⟨pkts, ?_⟩
      simp only [Run.observe, List.append_nil, List.reduceOption_nil]
      change LossyInv b L (reads ++ []) took got written pkts s
      rw [List.append_nil]
      exact h
  | cons op ops ih =>
      obtain ⟨out, t, outs, hstep, hrest, rfl⟩ := Run.run_cons_eq_ok.mp hrun
      obtain ⟨pkts₁, h₁⟩ := h.step hl halong.1 hstep
      obtain ⟨pkts₂, h₂⟩ := ih h₁ (halong.2 out t hstep) hrest
      refine ⟨pkts₂, ?_⟩
      rw [← List.singleton_append, lossyReads_append]
      simp only [List.singleton_append, Run.observe_cons hstep, reduceOption_cons,
        ← List.append_assoc]
      exact h₂

end Bridge.LossyInv

/-! ## Runs -/

/-- A link with losses: of what is read, `taken` reaches the encoder, with some flushes; of what the
encoder puts out, `received` reaches the decoder; and `written` is some of what the decoder puts
out. -/
structure LossyLink (enc : FECEncoder) (reads taken received written : List (List UInt8)) :
    Prop where
  taken_sublist : (taken.filter (· ≠ [])).Sublist reads
  coded : ∃ emitted e outs d done passed,
    Run.run FECEncoder.serve enc taken = .ok (emitted, e) ∧
    received.Sublist (emitted.flatten.map FECBlock.packet) ∧
    Run.run FECDecoder.deliver {} received = .ok (outs, d) ∧
    done <+: outs.flatten ∧ finished done = .ok passed ∧ written.Sublist passed

namespace BridgeConfig

variable (b : BridgeConfig)

/-- `main` sets up the links, and the threads run while frames may be lost. -/
def lossyRun (ops : List Bridge.LossyOp) :
    Except Fault (List (Option (ℕ × List UInt8)) × BridgeState) := do
  let l ← Links.configure b.blocksize b.sections
  Run.run (b.bridge l).lossyStep (b.start l) ops

/-- The run loses nothing that may not be lost. -/
def Allows (L : Losses) (ops : List Bridge.LossyOp) : Prop :=
  ∀ l, Links.configure b.blocksize b.sections = .ok l →
    Run.Along (b.bridge l).lossyStep L.Allows (b.start l) ops

instance (L : Losses) (ops : List Bridge.LossyOp) : Decidable (b.Allows L ops) :=
  match h : Links.configure b.blocksize b.sections with
  | .error _ => isTrue fun l hl ↦ by rw [h] at hl; cases hl
  | .ok l => decidable_of_iff (Run.Along (b.bridge l).lossyStep L.Allows (b.start l) ops)
      ⟨fun hl l' h' ↦ by rw [h] at h'; cases h'; exact hl, fun hs ↦ hs l h⟩

/-- What is observed of the steps of a run. -/
def observed (f : BridgeState → Bridge.LossyOp → List (List UInt8)) (ops : List Bridge.LossyOp) :
    List (List UInt8) :=
  match Links.configure b.blocksize b.sections with
  | .ok l => Run.observe (b.bridge l).lossyStep f (b.start l) ops
  | .error _ => []

variable {b}

theorem exists_configured (b : BridgeConfig) :
    ∃ l, Links.configure b.blocksize b.sections = .ok l ∧ l.Configured b.blocksize b.links := by
  rcases (Links.Configured.empty b.blocksize).foldlM (Nat.zero_le _) b.sections with
    ⟨-, l, hconf, hl⟩ | ⟨hlt, -⟩
  · rw [List.nil_append] at hl
    exact ⟨l, hconf, hl⟩
  · rw [List.length_nil, Nat.zero_add] at hlt
    exact absurd b.length_le (Nat.not_le.mpr hlt)

/-- The invariant after a run. -/
theorem lossyInv_of_run {L : Losses} {ops : List Bridge.LossyOp} (hallows : b.Allows L ops)
    {outs : List (Option (ℕ × List UInt8))} {s : BridgeState}
    (hrun : b.lossyRun ops = .ok (outs, s)) :
    ∃ pkts, Bridge.LossyInv b L (Bridge.lossyReads ops) (fun i ↦ b.observed (Bridge.takes i) ops)
      (fun i ↦ b.observed (Bridge.decodes i) ops) outs.reduceOption pkts s := by
  obtain ⟨l, hconf, hl⟩ := b.exists_configured
  simp only [lossyRun, hconf, ok_bind] at hrun
  obtain ⟨pkts, h⟩ := (Bridge.LossyInv.init hl).run hl (hallows l hconf) hrun
  refine ⟨pkts, ?_⟩
  simp only [observed, hconf]
  simpa only [List.nil_append] using h

/-- Every link of a bridge is a link with losses of its own, in every interleaving of the threads
and with any losses. -/
theorem refines_lossyLink (ops : List Bridge.LossyOp) (hallows : b.Allows ⟨true, true, true⟩ ops)
    {outs : List (Option (ℕ × List UInt8))} {s : BridgeState}
    (hrun : b.lossyRun ops = .ok (outs, s)) {i : ℕ} {g : Section} (hg : b.links[i]? = some g) :
    LossyLink (g.encoder b.blocksize) (b.readsOf g (Bridge.lossyReads ops))
      (b.observed (Bridge.takes i) ops) (b.observed (Bridge.decodes i) ops)
        (Bridge.written i outs) := by
  obtain ⟨pkts, h⟩ := lossyInv_of_run hallows hrun
  obtain ⟨e, d, hlink⟩ := h.link i g hg
  obtain ⟨emitted, decoded, passed, hpipe⟩ := hlink.pipe
  obtain ⟨done, hdone, hpassed⟩ := hpipe.finished
  refine ⟨?_, emitted, _, decoded, _, done, passed, hpipe.encoded, ?_, hpipe.decoded,
    ⟨_, hdone.symm⟩, hpassed, ?_⟩
  · refine List.Sublist.trans ?_ hpipe.reads.sublist
    rw [List.filter_append]
    exact List.sublist_append_left _ _
  · exact (List.sublist_append_left _ _).trans hpipe.sent.sublist
  · exact (List.sublist_append_left _ _).trans hpipe.written.sublist

theorem udpPacket_ne_nil : udpPacket ≠ [] := List.cons_ne_nil _ _

/-- The two links again; the frame of the first one is lost. -/
def lossyTwoLinks : List Bridge.LossyOp :=
  ([.read udpPacket udpPacket_ne_nil, .read [4, 5, 6] (by decide), .take, .transmit 0 0, .flush 7,
    .take, .transmit 0 0, .transmit 0 0, .take, .transmit 0 0, .transmit 0 0,
    .transmit 0 0] : List Bridge.Op).map
      .thread ++
  .lose :: ([.receive [0, 0, 8, 0, 0, 0, 0, 0] [0, 0, 0, 0] 0, .decode, .finish, .finish,
    .write] : List Bridge.Op).map .thread

/-- One packet arrives. -/
theorem refines_lossyLink_twoLinks : ∃ outs s, twoLinks.lossyRun lossyTwoLinks = .ok (outs, s) ∧
    Bridge.written 0 outs = [] ∧ Bridge.written 1 outs = [udpPacket] ∧
    ∀ (i : ℕ) (g : Section), twoLinks.links[i]? = some g →
      LossyLink (g.encoder twoLinks.blocksize) (twoLinks.readsOf g [udpPacket, [4, 5, 6]])
        (twoLinks.observed (Bridge.takes i) lossyTwoLinks)
        (twoLinks.observed (Bridge.decodes i) lossyTwoLinks) (Bridge.written i outs) := by
  have hallows : twoLinks.Allows ⟨true, true, true⟩ lossyTwoLinks := by decide +kernel
  have hwritten : (twoLinks.lossyRun lossyTwoLinks).toOption.any (fun r ↦
      Bridge.written 0 r.1 = [] ∧ Bridge.written 1 r.1 = [udpPacket]) = true := by decide +kernel
  cases hrun : twoLinks.lossyRun lossyTwoLinks with
  | error e =>
      rw [hrun] at hwritten
      cases hwritten
  | ok r =>
      rw [hrun] at hwritten
      obtain ⟨h₀, h₁⟩ := of_decide_eq_true hwritten
      exact ⟨r.1, r.2, rfl, h₀, h₁, fun i g hg ↦ refines_lossyLink lossyTwoLinks hallows hrun hg⟩

end BridgeConfig

end WfbBridge
