import Mathlib
import WfbBridge.Decoder.Recovery

/-!
# The working set of the decoder

`m_blocks` and `m_fec_blocks` are meant to hold blocks of one sequence, the one of
`m_prev_header`.  They do as long as a sequence is entered with nothing left over;
`add_block` clears the lists of the last sequence only if `m_block_size` is not 0, and
that is set by data blocks.
-/

namespace WfbBridge

open Checked

namespace Phase

variable {q : Sequence}

/-- The phase holds packets of `q` only, and fewer than it takes to decode. -/
def Own (q : Sequence) : Phase → Prop
  | .collecting I G => (∀ i ∈ I, i < q.nPackets) ∧ (∃ R : List ℕ, G = R.map q.block ∧
      ∀ k ∈ R, k < q.nPackets) ∧ I.length + G.length < q.nBlocks
  | .skipping G => (∃ R : List ℕ, G = R.map q.block ∧ ∀ k ∈ R, k < q.nPackets) ∧
      G.length < q.nBlocks

theorem Own.start : Own q (.collecting [] []) :=
  ⟨by simp, ⟨[], rfl, by simp⟩, q.nBlocks_pos⟩

/-- Data packets come before FEC packets; a data packet after them would not be counted with
them. -/
theorem Own.step {ph ph' : Phase} {k : ℕ} {out : List (FECBlock × ℕ)} (h : Own q ph)
    (hk : k < q.nPackets) (horder : ∀ I G, ph = .collecting I G → k < q.nBlocks → G = [])
    (hstep : ph.step q k = .ok (out, ph')) : Own q ph' := by
  have hnone : Own q (.skipping []) := ⟨⟨[], rfl, by simp⟩, q.nBlocks_pos⟩
  cases ph with
  | skipping G =>
      obtain ⟨-, rfl⟩ := Prod.mk.inj (Except.ok.inj hstep)
      exact h
  | collecting I G =>
      obtain ⟨hI, ⟨R, rfl, hR⟩, hcount⟩ := h
      have hmem : ∀ {J : List ℕ}, (∀ i ∈ J, i < q.nPackets) → ∀ i ∈ J ++ [k], i < q.nPackets := by
        intro J hJ i hi
        rcases List.mem_append.mp hi with hi | hi
        · exact hJ i hi
        · rwa [List.mem_singleton.mp hi]
      have hfec : R.map q.block ++ [q.block k] = (R ++ [k]).map q.block := by simp
      rw [Phase.step] at hstep
      by_cases hdata : k < q.nBlocks
      · rw [if_pos hdata] at hstep
        obtain ⟨-, rfl⟩ := Prod.mk.inj (Except.ok.inj hstep)
        have hG := horder I _ rfl hdata
        rw [hG, List.length_nil] at hcount
        split
        · exact hnone
        · refine ⟨hmem hI, ⟨R, rfl, hR⟩, ?_⟩
          rw [hG, List.length_append, List.length_singleton, List.length_nil]
          omega
      rw [if_neg hdata] at hstep
      by_cases hfull : I.length + ((R.map q.block).length + 1) = q.nBlocks
      · rw [if_pos hfull] at hstep
        obtain ⟨out', -, hout⟩ := bind_eq_ok.mp hstep
        obtain ⟨-, rfl⟩ := Prod.mk.inj (Except.ok.inj hout)
        exact hnone
      rw [if_neg hfull] at hstep
      by_cases hnil : I = []
      · rw [if_pos hnil] at hstep
        obtain ⟨-, rfl⟩ := Prod.mk.inj (Except.ok.inj hstep)
        refine ⟨⟨R ++ [k], hfec, hmem hR⟩, ?_⟩
        rw [hnil, List.length_nil] at hcount hfull
        rw [List.length_append, List.length_singleton]
        omega
      · rw [if_neg hnil] at hstep
        obtain ⟨-, rfl⟩ := Prod.mk.inj (Except.ok.inj hstep)
        refine ⟨hI, ⟨R ++ [k], hfec, hmem hR⟩, ?_⟩
        rw [List.length_append, List.length_singleton]
        omega

theorem Own.run {ph : Phase} {ks : List ℕ} {outs : List (List (FECBlock × ℕ))}
    (hks : ∀ k ∈ ks, k < q.nPackets) (hsorted : ks.Pairwise (· < ·))
    (hrun : Run.run (Phase.step q) (.collecting [] []) ks = .ok (outs, ph)) : Own q ph := by
  induction ks using List.reverseRecOn generalizing outs ph with
  | nil =>
      obtain ⟨-, rfl⟩ := Prod.mk.inj (Except.ok.inj hrun)
      exact .start
  | append_singleton ks k ih =>
      obtain ⟨outs₁, ph₁, outs₂, hpre, hlast, -⟩ := Run.run_append_eq_ok.mp hrun
      obtain ⟨out, ph₂, outs₃, hstep, hnil, -⟩ := Run.run_cons_eq_ok.mp hlast
      obtain ⟨-, rfl⟩ := Prod.mk.inj (Except.ok.inj hnil)
      obtain ⟨hsorted', -, hlt⟩ := List.pairwise_append.mp hsorted
      refine (ih (fun k hk ↦ hks k (List.mem_append_left _ hk)) hsorted' hpre).step
        (hks k (by simp))
        (fun I G hph hdata ↦ ?_) hstep
      subst hph
      rw [(collecting_run hpre).2, List.filter_eq_nil_iff.mpr]
      · rfl
      · intro j hj
        have := hlt j hj k (by simp)
        simp only [decide_eq_true_eq]
        omega

end Phase

namespace FECDecoder

/-- The blocks at hand are of the sequence of `m_prev_header`, and not enough to decode it. -/
structure WorkingSet (d : FECDecoder) : Prop where
  blocks : ∀ b ∈ d.blocks, b.header.seqNum = d.prevHeader.seqNum ∧
    b.header.nBlocks = d.prevHeader.nBlocks
  fecBlocks : ∀ b ∈ d.fecBlocks, b.header.seqNum = d.prevHeader.seqNum ∧
    b.header.nBlocks = d.prevHeader.nBlocks
  count : d.blocks.length + d.fecBlocks.length < d.prevHeader.nBlocks

instance (d : FECDecoder) : Decidable d.WorkingSet :=
  decidable_of_iff ((∀ b ∈ d.blocks, b.header.seqNum = d.prevHeader.seqNum ∧
      b.header.nBlocks = d.prevHeader.nBlocks) ∧
      (∀ b ∈ d.fecBlocks, b.header.seqNum = d.prevHeader.seqNum ∧
        b.header.nBlocks = d.prevHeader.nBlocks) ∧
      d.blocks.length + d.fecBlocks.length < d.prevHeader.nBlocks)
    ⟨fun ⟨h₁, h₂, h₃⟩ ↦ ⟨h₁, h₂, h₃⟩, fun h ↦ ⟨h.blocks, h.fecBlocks, h.count⟩⟩

variable {d d' : FECDecoder} {q : Sequence} {k : ℕ} {out : List (FECBlock × ℕ)}

/-- A phase that holds packets of `q` only is a working set of one sequence. -/
theorem At.workingSet {ph : Phase} (hat : d.At q ph) (hown : ph.Own q) (hph : ph.Entered)
    (hprev : d.prevHeader.nBlocks = q.nBlocks) : d.WorkingSet := by
  have hseq := hat.prev_eq hph
  have hblock : ∀ {J : List ℕ}, (∀ i ∈ J, i < q.nPackets) → ∀ b ∈ J.map q.block,
      b.header.seqNum = d.prevHeader.seqNum ∧ b.header.nBlocks = d.prevHeader.nBlocks := by
    intro J hJ b hb
    obtain ⟨i, hi, rfl⟩ := List.mem_map.mp hb
    obtain ⟨hs, -, hn, -⟩ := Sequence.header_block (hJ i hi)
    exact ⟨hs.trans hseq.symm, hn.trans hprev.symm⟩
  cases hat with
  | entry hne hb => exact absurd hseq hne
  | collecting hI _ hholds =>
      obtain ⟨hlt, ⟨R, rfl, hR⟩, hcount⟩ := hown
      refine ⟨by rw [hholds.blocks]; exact hblock hlt, by rw [hholds.fecBlocks]; exact hblock hR,
        ?_⟩
      rwa [hholds.blocks, hholds.fecBlocks, hprev, List.length_map]
  | skipping _ hholds =>
      obtain ⟨⟨R, rfl, hR⟩, hcount⟩ := hown
      refine ⟨by simp [hholds.blocks], by rw [hholds.fecBlocks]; exact hblock hR, ?_⟩
      rw [hholds.blocks, hholds.fecBlocks, hprev, List.map_nil, List.length_nil, Nat.zero_add]
      exact hcount

/-! ## Completed sequences -/

variable (d) in
/-- Nothing is at hand. -/
def Empty : Prop := d.blockSize = 0 ∧ d.blocks = [] ∧ d.fecBlocks = []

theorem totalBlocks_enterSequence {h : FECHeader} (henter : d.enterSequence h = some d') :
    d'.stats.totalBlocks = d.stats.totalBlocks := by
  simp only [enterSequence] at henter
  split_ifs at henter
  · obtain rfl := Option.some.inj henter
    change (d.countBreak h).stats.totalBlocks = _
    simp only [countBreak]
    split_ifs <;> rfl
  all_goals
    obtain rfl := Option.some.inj henter
    rfl

theorem totalBlocks_countSkipped (h : FECHeader) :
    (d.countSkipped h).stats.totalBlocks = d.stats.totalBlocks := by
  rw [countSkipped]
  split <;> rfl

/-- `m_prev_header` is the header of the last packet, and a packet that completes a sequence
leaves nothing at hand. -/
theorem addPacket_completes {blk : FECBlock} (h : d.addPacket blk = .ok d') :
    d'.prevHeader = blk.header ∧ (d'.stats.totalBlocks = d.stats.totalBlocks ∨ d'.Empty) := by
  rw [addPacket] at h
  by_cases hoff : blk.header.nBlocks = 0 ∨ blk.header.nFecBlocks = 0
  · simp only [if_pos hoff] at h
    obtain rfl := Except.ok.inj h
    exact ⟨rfl, .inl rfl⟩
  simp only [if_neg hoff] at h
  cases henter : (d.countPacket blk.pktLength).enterSequence blk.header with
  | none =>
      simp only [henter] at h
      obtain rfl := Except.ok.inj h
      exact ⟨rfl, .inl rfl⟩
  | some e =>
      simp only [henter] at h
      generalize he : { e with prevHeader := blk.header }.countSkipped blk.header = e₁ at h
      have hprev : e₁.prevHeader = blk.header := by
        rw [← he]
        exact countSkipped_prevHeader _
      have htotal : e₁.stats.totalBlocks = d.stats.totalBlocks := by
        have hsame := totalBlocks_enterSequence henter
        rw [← he, totalBlocks_countSkipped]
        exact hsame
      by_cases hdata : blk.isDataBlock
      · simp only [if_pos hdata, addDataBlock_eq] at h
        obtain rfl := Except.ok.inj h
        split
        · exact ⟨hprev, .inr ⟨rfl, rfl, rfl⟩⟩
        · exact ⟨hprev, .inl htotal⟩
      · simp only [if_neg hdata, addFecBlock] at h
        split at h
        · obtain ⟨e₂, hdec, hout⟩ := bind_eq_ok.mp h
          obtain rfl := Except.ok.inj hout
          refine ⟨?_, .inr ⟨rfl, rfl, rfl⟩⟩
          rcases decode_released { e₁ with fecBlocks := e₁.fecBlocks ++ [blk] } with
            ⟨_, e₃, -, hdec', -, hprev'⟩ | ⟨f, -, hdec'⟩
          · obtain rfl := Except.ok.inj (hdec.symm.trans hdec')
            exact hprev'.trans hprev
          · exact absurd (hdec.symm.trans hdec') (by simp)
        · obtain rfl := Except.ok.inj h
          exact ⟨hprev, .inl htotal⟩

theorem deliver_completes (hk : k < q.nPackets) (h : d.deliver (q.packet k) = .ok (out, d')) :
    d'.prevHeader.seqNum = q.seqNum ∧ d'.prevHeader.nBlocks = q.nBlocks ∧
      (d'.stats.totalBlocks = d.stats.totalBlocks ∨ d'.Empty) := by
  obtain ⟨e, hadd, -, rfl⟩ := exists_addPacket h
  obtain ⟨hprev, htotal⟩ := addPacket_completes hadd
  obtain ⟨hseq, -, hn, -⟩ := Sequence.header_block hk
  exact ⟨(congrArg FECHeader.seqNum hprev).trans hseq, (congrArg FECHeader.nBlocks hprev).trans hn,
    htotal⟩

theorem At.eq_skipping {ph : Phase} (hat : d.At q ph) (hph : ph.Entered) (hempty : d.Empty) :
    ph = .skipping [] := by
  obtain ⟨-, hblocks, hfec⟩ := hempty
  cases hat with
  | entry _ _ => exact absurd rfl hph
  | collecting hI _ hholds =>
      rw [hholds.blocks, List.map_eq_nil_iff] at hblocks
      exact absurd hblocks hI
  | skipping _ hholds => rw [← hfec, hholds.fecBlocks]

theorem At.empty (hat : d.At q (.skipping [])) : d.Empty := by
  cases hat with
  | skipping _ hholds => exact ⟨hholds.blockSize, hholds.blocks, hholds.fecBlocks⟩

/-- When a sequence has been completed, nothing is at hand until the next one. -/
theorem At.run_completes {ks : List ℕ} {ph : Phase} {outs : List (List (FECBlock × ℕ))}
    (hks : ∀ k ∈ ks, k < q.nPackets) (hat : d.At q ph)
    (h : Run.run FECDecoder.deliver d (ks.map q.packet) = .ok (outs, d')) :
    d'.stats.totalBlocks = d.stats.totalBlocks ∨ d'.Empty := by
  induction ks using List.reverseRecOn generalizing outs d' with
  | nil =>
      obtain ⟨-, rfl⟩ := Prod.mk.inj (Except.ok.inj h)
      exact .inl rfl
  | append_singleton ks k ih =>
      have hks' : ∀ k ∈ ks, k < q.nPackets := fun k hk ↦ hks k (List.mem_append_left _ hk)
      have hk : k < q.nPackets := hks k (by simp)
      rw [List.map_append] at h
      obtain ⟨outs₁, d₁, outs₂, hpre, hlast, -⟩ := Run.run_append_eq_ok.mp h
      obtain ⟨out, d₂, outs₃, hdeliver, hnil, -⟩ := Run.run_cons_eq_ok.mp hlast
      obtain ⟨-, rfl⟩ := Prod.mk.inj (Except.ok.inj hnil)
      obtain ⟨-, -, htotal⟩ := deliver_completes hk hdeliver
      rcases htotal with htotal | hempty
      · rcases ih hks' hpre with hsame | hempty
        · exact .inl (htotal.trans hsame)
        -- completed before: the packet is skipped
        by_cases hnil : ks = []
        · subst hnil
          obtain ⟨-, rfl⟩ := Prod.mk.inj (Except.ok.inj hpre)
          exact .inl htotal
        · have hagree := hat.run ks hks'
          rw [hpre] at hagree
          obtain ⟨ph₁, hph₁, hat₁⟩ := hagree.to_ok
          obtain rfl := hat₁.eq_skipping (Phase.entered_run hph₁ hnil) hempty
          have hstep := hat₁.deliver hk
          rw [hdeliver] at hstep
          obtain ⟨ph₂, hph₂, hat₂⟩ := hstep.to_ok
          obtain ⟨-, rfl⟩ := Prod.mk.inj (Except.ok.inj hph₂)
          exact .inr hat₂.empty
      · exact .inr hempty

/-- A sequence can be entered: no FEC blocks of an earlier one are left over. -/
def NothingLeft (d : FECDecoder) : Prop := d.blockSize = 0 → d.fecBlocks = []

theorem Between.eq_nil {G : List FECBlock} (h : d.Between G) (hd : d.NothingLeft) : G = [] := by
  rw [← h.fecBlocks]
  split
  case isTrue h0 => exact hd h0
  case isFalse => rfl

end FECDecoder

/-- Entered with nothing left over, a sequence never makes `decode` fail. -/
theorem Reception.run_ok (r : Reception) : ∃ outs ph,
    Run.run (Phase.step r.seq) (.collecting [] []) r.got = .ok (outs, ph) := by
  rcases r.run_cases [] with ⟨-, hrun⟩ | ⟨hne, hlt, R, k, R₂, hfec, hcount, hdec⟩ |
    ⟨-, -, -, hrun⟩ | ⟨-, ph, hrun, -⟩
  · exact ⟨_, _, hrun⟩
  · rw [List.nil_append] at hcount hdec
    have hR : r.seq.FecPackets (R ++ [k]) :=
      Reception.fecPackets (by rw [hfec]; exact List.sublist_append_left _ _)
    obtain ⟨out, hout⟩ := (Reception.enough hne hlt hcount).rebuild_ok (hR.longEnough r.data)
    rw [hout, ok_bind] at hdec
    exact ⟨_, _, hdec⟩
  · exact ⟨_, _, hrun⟩
  · exact ⟨_, _, hrun⟩

/-- A decoder that enters every sequence with nothing left over gets through all of them. -/
theorem exists_follows {P : FecParams} {ops : List FECEncoder.Op} {qs : List Sequence}
    (hsends : P.Sends ops qs) {pre post : List Reception}
    (hrs : (pre ++ post).map Reception.seq = qs) (hnear : Near (pre ++ post))
    (hleft : Run.Along FECDecoder.receive (fun d r ↦ r.got ≠ [] → d.NothingLeft) {} (pre ++ post)) :
    ∃ outs d G, Run.run FECDecoder.receive {} pre = .ok (outs, d) ∧ d.Follows P pre G := by
  induction pre using List.reverseRecOn generalizing post with
  | nil => exact ⟨[], {}, [], rfl, .fresh⟩
  | append_singleton pre r ih =>
      rw [List.append_assoc, List.singleton_append] at hrs hnear hleft
      obtain ⟨outs, d, G, hrun, hfollows⟩ := ih hrs hnear hleft
      have hd := ((Run.along_append.mp hleft).2 outs d hrun).1
      have hphase : ∃ out ph,
          Run.run (Phase.step r.seq) (.collecting [] G) r.got = .ok (out, ph) := by
        by_cases hr : r.got = []
        · rw [hr]
          exact ⟨_, _, rfl⟩
        · rw [hfollows.between.eq_nil (hd hr)]
          exact r.run_ok
      obtain ⟨out, ph, hphase⟩ := hphase
      obtain ⟨d', hd', hfollows'⟩ :=
        hfollows.receive hnear (hsends.isSequence_of_append hrs) hphase
      refine ⟨outs ++ [out], d', ph.leftover, ?_, hfollows'⟩
      exact Run.run_append_eq_ok.mpr ⟨outs, d, [out], hrun,
        Run.run_cons_eq_ok.mpr ⟨out, d', [], hd', rfl, rfl⟩, rfl⟩

/-- The working set belongs to one sequence, if every sequence is entered with nothing left over:
after every packet the blocks at hand are of the sequence of `m_prev_header`, fewer than it takes
to decode it, and none when `total_blocks` has counted it. -/
theorem working_set_of_one_sequence (P : FecParams) (ops : List FECEncoder.Op)
    (hops : P.Admits ops) :
    ∃ qs, P.Sends ops qs ∧ ∀ rs : List Reception, rs.map Reception.seq = qs → Near rs →
      Run.Along FECDecoder.receive (fun d r ↦ r.got ≠ [] → d.NothingLeft) {} rs →
      ∀ pre r post, rs = pre ++ r :: post → ∀ ks, ks ≠ [] → ks <+: r.got →
        ∃ outs₀ d₀ outs d, Run.run FECDecoder.receive {} pre = .ok (outs₀, d₀) ∧
          Run.run FECDecoder.deliver d₀ (ks.map r.seq.packet) = .ok (outs, d) ∧ d.WorkingSet ∧
          (d₀.stats.totalBlocks < d.stats.totalBlocks → d.blocks = [] ∧ d.fecBlocks = []) := by
  obtain ⟨qs, hsends⟩ := P.exists_sends hops
  refine ⟨qs, hsends, ?_⟩
  rintro _ hrs hnear hleft pre r post rfl ks hne ⟨rest, hrest⟩
  obtain ⟨outs₀, d₀, G, hrun₀, hfollows⟩ := exists_follows hsends hrs hnear hleft
  have hr : r.got ≠ [] := by
    rw [← hrest]
    simp [hne]
  obtain rfl := hfollows.between.eq_nil (((Run.along_append.mp hleft).2 outs₀ d₀ hrun₀).1 hr)
  have hat : d₀.At r.seq (.collecting [] []) :=
    .entry (hfollows.prev_ne hnear hr (hsends.isSequence_of_append hrs)) hfollows.between
  have hks : ∀ k ∈ ks, k < r.seq.nPackets := fun k hk ↦
    Reception.got_lt (by rw [← hrest]; exact List.mem_append_left _ hk)
  obtain ⟨_, _, hphase⟩ := r.run_ok
  rw [← hrest] at hphase
  obtain ⟨outs, ph, _, hphase, -, -⟩ := Run.run_append_eq_ok.mp hphase
  have hagree := hat.run ks hks
  rw [hphase] at hagree
  obtain ⟨d, hrun, hat'⟩ := hagree.of_ok
  have hsorted : ks.Pairwise (· < ·) := r.sorted_got.sublist (hrest ▸ List.sublist_append_left _ _)
  refine ⟨outs₀, d₀, outs, d, hrun₀, hrun, ?_, fun hlt ↦ ?_⟩
  · refine hat'.workingSet (Phase.Own.run hks hsorted hphase) (Phase.entered_run hphase hne) ?_
    obtain ⟨ks, k, rfl⟩ := (List.eq_nil_or_concat' ks).resolve_left hne
    rw [List.map_append] at hrun
    obtain ⟨_, d₁, _, -, hlast, -⟩ := Run.run_append_eq_ok.mp hrun
    obtain ⟨_, d₂, _, hdeliver, hnil, -⟩ := Run.run_cons_eq_ok.mp hlast
    obtain ⟨-, rfl⟩ := Prod.mk.inj (Except.ok.inj hnil)
    exact (FECDecoder.deliver_completes (hks k (by simp)) hdeliver).2.1
  · rcases hat.run_completes hks hrun with htotal | hempty
    · exact absurd htotal hlt.ne'
    · exact hempty.2

/-- After the first of two data packets, and an FEC packet in the place of the second. -/
theorem working_set_of_one_sequence_one_loss :
    ∃ r : Reception, r.seq.msgs = [[1, 2, 3], [7]] ∧ r.got = [0, 2] ∧
      (∃ outs d, Run.run FECDecoder.deliver {} [r.seq.packet 0] = .ok (outs, d) ∧ d.WorkingSet) ∧
      ∃ outs d, Run.run FECDecoder.deliver {} [r.seq.packet 0, r.seq.packet 2] = .ok (outs, d) ∧
        d.WorkingSet := by
  obtain ⟨qs, hsends, h⟩ := working_set_of_one_sequence
    { numBlocks := 2, numFecBlocks := 1, maxBlockSize := 10 } [.push [1, 2, 3], .push [7]]
    (by decide)
  have hmsgs : qs.map Sequence.msgs = [[[1, 2, 3], [7]]] := hsends.msgs
  obtain ⟨q, rfl, hq⟩ := List.map_eq_singleton_iff.mp hmsgs
  have hn : q.nPackets = 3 := by
    rw [Sequence.nPackets, Sequence.nBlocks, (hsends.isSequence 0 q rfl).nFecBlocks, hq]
    rfl
  let r : Reception := ⟨q, [0, 2], by rw [hn]; decide⟩
  have hall := h [r] rfl (List.isChain_singleton 0) ⟨fun _ _ ↦ rfl, fun _ _ _ ↦ trivial⟩ [] r [] rfl
  refine ⟨r, hq, rfl, ?_, ?_⟩
  · obtain ⟨_, d₀, outs, d, hrun₀, hrun, hd, -⟩ := hall [0] (by simp) ⟨[2], rfl⟩
    obtain ⟨-, rfl⟩ := Prod.mk.inj (Except.ok.inj hrun₀)
    exact ⟨outs, d, hrun, hd⟩
  · obtain ⟨_, d₀, outs, d, hrun₀, hrun, hd, -⟩ := hall [0, 2] (by simp) ⟨[], rfl⟩
    obtain ⟨-, rfl⟩ := Prod.mk.inj (Except.ok.inj hrun₀)
    exact ⟨outs, d, hrun, hd⟩

/-- The decoder after a transmission: the encoder is run on `ops`, and the packets at the positions
`keep` of its output arrive. -/
def FecParams.decoderAfter (P : FecParams) (ops : List FECEncoder.Op) (keep : List ℕ) :
    Except Fault FECDecoder := do
  let (outs, e) ← Run.run FECEncoder.step P.encoder ops
  let packets := (outs.flatten ++ e.outBlocks).map FECBlock.packet
  let (_, d) ← Run.run FECDecoder.deliver {} (keep.filterMap (packets[·]?))
  .ok d

/-- Of the first of two sequences only an FEC packet arrives.  It is still at hand after the first
packet of the second sequence. -/
theorem leftover_fec_block_at_hand :
    ∃ d, FecParams.decoderAfter { numBlocks := 2, numFecBlocks := 1, maxBlockSize := 10 }
      [.push [1], .push [2], .push [3], .push [4]] [2, 3] = .ok d ∧ ¬ d.WorkingSet := by
  have hmixed : (FecParams.decoderAfter { numBlocks := 2, numFecBlocks := 1, maxBlockSize := 10 }
      [.push [1], .push [2], .push [3], .push [4]] [2, 3]).toOption.any
      (fun d ↦ decide ¬ d.WorkingSet) = true := by
    decide +kernel
  obtain ⟨d, hd, hmixed⟩ := exists_ok_of_any hmixed
  exact ⟨d, hd, of_decide_eq_true hmixed⟩

end WfbBridge
