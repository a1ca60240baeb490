import Mathlib
import WfbBridge.Decoder.Rebuild

/-!
# A sequence arrives

What a run of `Phase.step` over the packets of a sequence does, in closed form.
The packets arrive in order, so the data packets come first: `run_data` gives the
blocks released for them, and the lemmas after it what the FEC packets add.
-/

namespace WfbBridge

open Checked

/-- The packets of a sequence that arrive. -/
structure Reception where
  seq : Sequence
  got : List ℕ
  got_sublist : got.Sublist (List.range seq.nPackets)

namespace Reception

variable (r : Reception)

/-- The data packets that arrive. -/
def data : List ℕ := r.got.filter (· < r.seq.nBlocks)

/-- The FEC packets that arrive. -/
def fec : List ℕ := r.got.filter (r.seq.nBlocks ≤ ·)

/-- The packets, as they are given to the decoder. -/
def packets : List (List UInt8) := r.got.map r.seq.packet

variable {r}

theorem got_lt {k : ℕ} (hk : k ∈ r.got) : k < r.seq.nPackets :=
  List.mem_range.mp (r.got_sublist.subset hk)

theorem sorted_got : r.got.Pairwise (· < ·) := List.pairwise_lt_range.sublist r.got_sublist

/-- The data packets arrive first. -/
theorem got_eq : r.got = r.data ++ r.fec := by
  have h := r.got_sublist
  rw [Sequence.nPackets, List.range_add] at h
  obtain ⟨l₁, l₂, hgot, h₁, h₂⟩ := List.sublist_append_iff.mp h
  have hlt : ∀ k ∈ l₁, k < r.seq.nBlocks := fun k hk ↦ List.mem_range.mp (h₁.subset hk)
  have hge : ∀ k ∈ l₂, r.seq.nBlocks ≤ k := by
    intro k hk
    obtain ⟨j, -, rfl⟩ := List.mem_map.mp (h₂.subset hk)
    exact Nat.le_add_right _ _
  have hdata : r.data = l₁ := by
    rw [data, hgot, List.filter_append, List.filter_eq_self.mpr (by simpa using hlt),
      List.filter_eq_nil_iff.mpr (by simpa using hge), List.append_nil]
  have hfec : r.fec = l₂ := by
    rw [fec, hgot, List.filter_append, List.filter_eq_nil_iff.mpr (by simpa using hlt),
      List.filter_eq_self.mpr (by simpa using hge), List.nil_append]
  rw [hdata, hfec, hgot]

theorem data_lt {i : ℕ} (hi : i ∈ r.data) : i < r.seq.nBlocks := by
  simpa using (List.mem_filter.mp hi).2

theorem fec_ge {k : ℕ} (hk : k ∈ r.fec) : r.seq.nBlocks ≤ k := by
  simpa using (List.mem_filter.mp hk).2

theorem fec_lt {k : ℕ} (hk : k ∈ r.fec) : k < r.seq.nPackets := got_lt (List.mem_filter.mp hk).1

theorem sorted_data : r.data.Pairwise (· < ·) := sorted_got.filter _

theorem sorted_fec : r.fec.Pairwise (· < ·) := sorted_got.filter _

theorem fecPackets {R : List ℕ} (hR : R.Sublist r.fec) : r.seq.FecPackets R :=
  ⟨(sorted_fec.sublist hR).imp fun h ↦ Nat.ne_of_lt h, fun _ hk ↦ fec_ge (hR.subset hk),
    fun _ hk ↦ fec_lt (hR.subset hk)⟩

theorem length_data_le : r.data.length ≤ r.seq.nBlocks := by
  have := Sequence.length_erased r.sorted_data fun _ h ↦ data_lt h
  omega

end Reception

/-! ## Runs of the phases -/

namespace Phase

variable {q : Sequence} {I R : List ℕ} {G : List FECBlock}

/-- The blocks released while the data blocks `I` arrive. -/
def dataOut (q : Sequence) (I : List ℕ) : List (List (FECBlock × ℕ)) :=
  I.mapIdx fun t i ↦ if t = i then [(q.block i, i)] else []

theorem run_skipping (ks : List ℕ) :
    Run.run (step q) (.skipping G) ks = .ok (List.replicate ks.length [], .skipping G) := by
  induction ks with
  | nil => rfl
  | cons k ks ih =>
      exact Run.run_cons_eq_ok.mpr ⟨[], .skipping G, List.replicate ks.length [], rfl, ih, rfl⟩

/-- The phase after the data blocks `I`. -/
def afterData (q : Sequence) (I : List ℕ) (G : List FECBlock) : Phase :=
  if I.length = q.nBlocks then .skipping [] else .collecting I G

theorem run_data (hlt : ∀ i ∈ I, i < q.nBlocks) (hlen : I.length ≤ q.nBlocks) :
    Run.run (step q) (.collecting [] G) I = .ok (dataOut q I, afterData q I G) := by
  induction I using List.reverseRecOn with
  | nil =>
      have := q.nBlocks_pos
      rw [afterData, if_neg (by simp; omega)]
      rfl
  | append_singleton I i ih =>
      rw [List.length_append, List.length_singleton] at hlen
      have hi : i < q.nBlocks := hlt i (by simp)
      have hrun := ih (fun j hj ↦ hlt j (List.mem_append_left _ hj)) (by omega)
      rw [afterData, if_neg (by omega)] at hrun
      refine Run.run_append_eq_ok.mpr ⟨_, _, [if I.length = i then [(q.block i, i)] else []], hrun,
        Run.run_cons_eq_ok.mpr ⟨_, afterData q (I ++ [i]) G, [], ?_, rfl, rfl⟩, ?_⟩
      · rw [step, if_pos hi, afterData, List.length_append, List.length_singleton]
      · rw [dataOut, List.mapIdx_concat]
        rfl

/-- FEC packets that do not lead to a call of `decode` are collected. -/
theorem run_fec_collect (hI : I ≠ []) (hge : ∀ r ∈ R, q.nBlocks ≤ r)
    (hcount : I.length + G.length + R.length < q.nBlocks ∨ q.nBlocks ≤ I.length + G.length) :
    Run.run (step q) (.collecting I G) R =
      .ok (List.replicate R.length [], .collecting I (G ++ R.map q.block)) := by
  induction R generalizing G with
  | nil => simp
  | cons r R ih =>
      rw [List.length_cons] at hcount
      have hrun := ih (G := G ++ [q.block r]) (fun k hk ↦ hge k (List.mem_cons_of_mem _ hk))
        (by rw [List.length_append, List.length_singleton]; omega)
      refine Run.run_cons_eq_ok.mpr ⟨[], .collecting I (G ++ [q.block r]), _, ?_, hrun, rfl⟩
        |>.trans ?_
      · rw [step, if_neg (Nat.not_lt.mpr (hge r List.mem_cons_self)), if_neg (by omega), if_neg hI]
      · rw [List.append_assoc]
        rfl

/-- The FEC packet that makes the count `n_blocks`, and those after it. -/
theorem run_fec_decode {r : ℕ} (R₂ : List ℕ) (hI : I ≠ []) (hge : ∀ k ∈ R ++ [r], q.nBlocks ≤ k)
    (hcount : I.length + G.length + (R ++ [r]).length = q.nBlocks) :
    Run.run (step q) (.collecting I G) (R ++ [r] ++ R₂) = (do
      let out ← q.rebuild I (G ++ (R ++ [r]).map q.block)
      .ok (List.replicate R.length [] ++ [out] ++ List.replicate R₂.length [], .skipping [])) := by
  rw [List.length_append, List.length_singleton] at hcount
  have hcollect := run_fec_collect (G := G) hI (fun k hk ↦ hge k (List.mem_append_left _ hk))
    (.inl (by omega : I.length + G.length + R.length < q.nBlocks))
  have hr : q.nBlocks ≤ r := hge r (by simp)
  have hlast : step q (.collecting I (G ++ R.map q.block)) r = (do
      let out ← q.rebuild I (G ++ (R ++ [r]).map q.block)
      .ok (out, .skipping [])) := by
    rw [step, if_neg (Nat.not_lt.mpr hr), if_pos (by
      rw [List.length_append, List.length_map]
      omega), List.append_assoc, ← List.map_singleton, ← List.map_append]
  rw [Run.run_append, Run.run_append, hcollect]
  simp only [ok_bind, Run.run, hlast]
  cases q.rebuild I (G ++ (R ++ [r]).map q.block) with
  | error f => rfl
  | ok out => simp only [ok_bind, run_skipping]

/-- FEC packets alone: the first one is kept or completes the count,
and the others are skipped. -/
theorem run_fec_only {r : ℕ} (hge : q.nBlocks ≤ r) :
    Run.run (step q) (.collecting [] G) (r :: R) = .ok (List.replicate (R.length + 1) [],
      .skipping (if G.length + 1 = q.nBlocks then [] else G ++ [q.block r])) := by
  refine Run.run_cons_eq_ok.mpr ⟨[], _, _, ?_, run_skipping R, rfl⟩
  rw [step, if_neg (Nat.not_lt.mpr hge), List.length_nil, Nat.zero_add]
  by_cases hcount : G.length + 1 = q.nBlocks
  · rw [if_pos hcount, if_pos hcount]
    rfl
  · rw [if_neg hcount, if_neg hcount, if_pos rfl]

/-- While the decoder is collecting, it has all packets that arrived. -/
theorem collecting_run {ks : List ℕ} {outs : List (List (FECBlock × ℕ))} {G' : List FECBlock}
    (h : Run.run (step q) (.collecting [] G) ks = .ok (outs, .collecting I G')) :
    I = ks.filter (· < q.nBlocks) ∧ G' = G ++ (ks.filter (q.nBlocks ≤ ·)).map q.block := by
  induction ks using List.reverseRecOn generalizing outs I G' with
  | nil =>
      obtain ⟨-, hph⟩ := Prod.mk.inj (Except.ok.inj h)
      obtain ⟨rfl, rfl⟩ := Phase.collecting.inj hph
      exact ⟨rfl, (List.append_nil _).symm⟩
  | append_singleton ks k ih =>
      obtain ⟨outs₁, ph, _, hrun, hlast, -⟩ := Run.run_append_eq_ok.mp h
      obtain ⟨out, ph', _, hstep, hnil, -⟩ := Run.run_cons_eq_ok.mp hlast
      obtain ⟨-, rfl⟩ := Prod.mk.inj (Except.ok.inj hnil)
      cases ph with
      | skipping G₁ => exact absurd (Prod.mk.inj (Except.ok.inj hstep)).2 (by simp)
      | collecting I₁ G₁ =>
          obtain ⟨rfl, rfl⟩ := ih hrun
          rw [step] at hstep
          by_cases hdata : k < q.nBlocks
          · rw [if_pos hdata] at hstep
            obtain ⟨-, hph⟩ := Prod.mk.inj (Except.ok.inj hstep)
            split at hph
            · exact absurd hph (by simp)
            · obtain ⟨rfl, rfl⟩ := Phase.collecting.inj hph
              simp [List.filter_append, hdata, Nat.not_le.mpr hdata]
          rw [if_neg hdata] at hstep
          split at hstep
          · obtain ⟨_, -, hok⟩ := bind_eq_ok.mp hstep
            exact absurd (Prod.mk.inj (Except.ok.inj hok)).2 (by simp)
          split at hstep
          · exact absurd (Prod.mk.inj (Except.ok.inj hstep)).2 (by simp)
          · obtain ⟨rfl, rfl⟩ := Phase.collecting.inj (Prod.mk.inj (Except.ok.inj hstep)).2
            simp [List.filter_append, hdata, Nat.not_lt.mp hdata]

/-! ## The blocks released in order -/

theorem exists_range_append {first : ℕ} (hs : I.Pairwise (· < ·)) (hall : ∀ i < first, i ∈ I) :
    ∃ I', I = List.range first ++ I' ∧ ∀ i ∈ I', first ≤ i := by
  induction first with
  | zero => exact ⟨I, rfl, fun _ _ ↦ Nat.zero_le _⟩
  | succ first ih =>
      obtain ⟨I', hI, hge⟩ := ih fun i hi ↦ hall i (by omega)
      have hmem : first ∈ I' := by
        have := hall first (by omega)
        rw [hI, List.mem_append] at this
        exact this.resolve_left (by simp)
      have hs' : I'.Pairwise (· < ·) := (List.pairwise_append.mp (hI ▸ hs)).2.1
      obtain ⟨a, I'', rfl⟩ := List.exists_cons_of_ne_nil (List.ne_nil_of_mem hmem)
      obtain ⟨hlt, -⟩ := List.pairwise_cons.mp hs'
      obtain rfl : a = first := by
        rcases List.mem_cons.mp hmem with h | h
        · exact h.symm
        · have := hlt first h
          have := hge a List.mem_cons_self
          omega
      exact ⟨I'', by rw [hI, List.range_succ, List.append_assoc]; rfl, fun i hi ↦ hlt i hi⟩

/-- A sorted list stays ahead of its index. -/
theorem add_le_getElem {b : ℕ} (hs : I.Pairwise (· < ·)) (hge : ∀ i ∈ I, b ≤ i) (t : ℕ)
    (ht : t < I.length) : b + t ≤ I[t] := by
  induction I generalizing b t with
  | nil => exact absurd ht (Nat.not_lt_zero t)
  | cons a I ih =>
      obtain ⟨hlt, hs'⟩ := List.pairwise_cons.mp hs
      have ha := hge a List.mem_cons_self
      cases t with
      | zero => exact ha
      | succ t =>
          have := ih (b := a + 1) hs' (fun i hi ↦ hlt i hi) t (by simpa using ht)
          rw [List.getElem_cons_succ]
          omega

/-- The blocks before the first gap are released as they arrive, and no others. -/
theorem dataOut_eq {first : ℕ} (hs : I.Pairwise (· < ·)) (hall : ∀ i < first, i ∈ I)
    (hnot : first ∉ I) : ∃ m, dataOut q I =
      ((List.range first).map fun i ↦ [(q.block i, i)]) ++ List.replicate m [] := by
  obtain ⟨I', rfl, hge⟩ := exists_range_append hs hall
  have hgt : ∀ i ∈ I', first + 1 ≤ i := by
    intro i hi
    have hne : i ≠ first := fun h ↦ hnot (h ▸ List.mem_append_right _ hi)
    have := hge i hi
    omega
  refine ⟨I'.length, ?_⟩
  rw [dataOut, List.mapIdx_append]
  congr 1
  · refine List.ext_getElem (by simp) fun t ht ht' ↦ ?_
    simp
  · refine List.eq_replicate_iff.mpr ⟨by simp, fun x hx ↦ ?_⟩
    obtain ⟨t, ht, rfl⟩ := List.mem_iff_getElem.mp hx
    rw [List.length_mapIdx] at ht
    have := add_le_getElem (List.pairwise_append.mp hs).2.1 hgt t ht
    have hrange : (List.range first).length = first := List.length_range
    rw [List.getElem_mapIdx, if_neg]
    omega

end Phase

namespace Reception

variable {r : Reception} {G : List FECBlock}

/-- The ways a sequence can go. -/
theorem run_cases (r : Reception) (G : List FECBlock) :
    -- all data packets
    (r.data.length = r.seq.nBlocks ∧ Run.run (Phase.step r.seq) (.collecting [] G) r.got =
      .ok (Phase.dataOut r.seq r.data ++ List.replicate r.fec.length [], .skipping [])) ∨
    -- data packets are missing, and `decode` is called
    (r.data ≠ [] ∧ r.data.length < r.seq.nBlocks ∧ ∃ R k R₂, r.fec = R ++ [k] ++ R₂ ∧
      r.data.length + (G ++ (R ++ [k]).map r.seq.block).length = r.seq.nBlocks ∧
      Run.run (Phase.step r.seq) (.collecting [] G) r.got = (do
        let out ← r.seq.rebuild r.data (G ++ (R ++ [k]).map r.seq.block)
        .ok (Phase.dataOut r.seq r.data ++
          (List.replicate R.length [] ++ [out] ++ List.replicate R₂.length []), .skipping []))) ∨
    -- data packets are missing, and `decode` is not called
    (r.data ≠ [] ∧ r.data.length < r.seq.nBlocks ∧
      (r.data.length + G.length + r.fec.length < r.seq.nBlocks ∨
        r.seq.nBlocks ≤ r.data.length + G.length) ∧
      Run.run (Phase.step r.seq) (.collecting [] G) r.got =
        .ok (Phase.dataOut r.seq r.data ++ List.replicate r.fec.length [],
          .collecting r.data (G ++ r.fec.map r.seq.block))) ∨
    -- no data packet
    (r.data = [] ∧ ∃ ph, Run.run (Phase.step r.seq) (.collecting [] G) r.got =
        .ok (List.replicate r.got.length [], ph) ∧
      (r.got = [] ∧ ph.leftover = G ∨ ph.leftover = [] ∨
        ∃ k ∈ r.fec, ph.leftover = G ++ [r.seq.block k])) := by
  have hdata := Phase.run_data (G := G) (fun i hi ↦ data_lt hi) r.length_data_le
  have hgot := r.got_eq
  by_cases hfull : r.data.length = r.seq.nBlocks
  · refine .inl ⟨hfull, ?_⟩
    rw [Phase.afterData, if_pos hfull] at hdata
    rw [hgot]
    exact Run.run_append_eq_ok.mpr ⟨_, _, _, hdata, Phase.run_skipping r.fec, rfl⟩
  rw [Phase.afterData, if_neg hfull] at hdata
  have hlt : r.data.length < r.seq.nBlocks := lt_of_le_of_ne r.length_data_le hfull
  by_cases hne : r.data = []
  · refine .inr (.inr (.inr ⟨hne, ?_⟩))
    rw [hne, List.nil_append] at hgot
    cases hfec : r.fec with
    | nil =>
        rw [hfec] at hgot
        exact ⟨.collecting [] G, by rw [hgot]; rfl, .inl ⟨hgot, rfl⟩⟩
    | cons k R =>
        rw [hgot, hfec]
        refine ⟨_, Phase.run_fec_only (fec_ge (hfec ▸ List.mem_cons_self)), .inr ?_⟩
        split
        · exact .inl rfl
        · exact .inr ⟨k, List.mem_cons_self, rfl⟩
  by_cases hcount : r.data.length + G.length + r.fec.length < r.seq.nBlocks ∨
      r.seq.nBlocks ≤ r.data.length + G.length
  · refine .inr (.inr (.inl ⟨hne, hlt, hcount, ?_⟩))
    rw [hgot]
    exact Run.run_append_eq_ok.mpr ⟨_, _, _, hdata,
      Phase.run_fec_collect hne (fun k hk ↦ fec_ge hk) hcount, rfl⟩
  · refine .inr (.inl ⟨hne, hlt, ?_⟩)
    -- the count is reached at position `m` of the FEC packets
    obtain ⟨m, hm⟩ : ∃ m, r.data.length + G.length + m + 1 = r.seq.nBlocks :=
      ⟨r.seq.nBlocks - (r.data.length + G.length) - 1, by omega⟩
    have hmlt : m < r.fec.length := by omega
    have hfec : r.fec = r.fec.take m ++ [r.fec[m]] ++ r.fec.drop (m + 1) := by
      rw [List.take_append_getElem, List.take_append_drop]
    have hlen : r.data.length + G.length + (r.fec.take m ++ [r.fec[m]]).length = r.seq.nBlocks := by
      rw [List.length_append, List.length_take, List.length_singleton]
      omega
    refine ⟨_, _, _, hfec, ?_, ?_⟩
    · rw [List.length_append, List.length_map, ← Nat.add_assoc]
      exact hlen
    · have hrun := Phase.run_fec_decode (r.fec.drop (m + 1)) hne (fun k hk ↦ fec_ge (by
        rw [hfec]
        exact List.mem_append_left _ hk)) hlen
      rw [← hfec] at hrun
      rw [hgot, Run.run_append, hdata]
      simp only [ok_bind, hrun]
      cases r.seq.rebuild r.data (G ++ (r.fec.take m ++ [r.fec[m]]).map r.seq.block) <;> rfl

/-- When the last packet of a reception makes `decode` run, the working set is all that
arrived, after what was left over. -/
theorem decoding_eq_some {d d' : FECDecoder} {ks : List ℕ} {k : ℕ}
    {outs : List (List (FECBlock × ℕ))} {ph : Phase} (hgot : r.got = ks ++ [k])
    (hrun : Run.run (Phase.step r.seq) (.collecting [] G) ks = .ok (outs, ph))
    (hat : d.At r.seq ph) (hdec : d.decoding (r.seq.block k) = some d') :
    d'.Holds r.seq r.data (G ++ r.fec.map r.seq.block) ∧
      r.data.length + (G ++ r.fec.map r.seq.block).length = r.seq.nBlocks ∧
      r.seq.nBlocks ≤ k := by
  have hk : k < r.seq.nPackets := got_lt (by rw [hgot]; simp)
  cases ph with
  | skipping G =>
      rw [hat.decoding_skipping hk] at hdec
      exact absurd hdec (by simp)
  | collecting I G' =>
      obtain ⟨hI, hG'⟩ := Phase.collecting_run hrun
      obtain ⟨d₁, hholds, -, -, hdecoding⟩ := hat.addPacket hk
      rw [hdecoding] at hdec
      split at hdec
      case isFalse => exact absurd hdec (by simp)
      case isTrue hcond =>
        obtain ⟨hfec, hcount⟩ := hcond
        obtain rfl := Option.some.inj hdec
        have hdata : r.data = I := by
          simp [Reception.data, hgot, List.filter_append, hfec, hI]
        have hfecs : G ++ r.fec.map r.seq.block = G' ++ [r.seq.block k] := by
          simp [Reception.fec, hgot, List.filter_append, Nat.not_lt.mp hfec, hG']
        rw [hdata, hfecs, List.length_append, List.length_singleton]
        exact ⟨⟨hholds.blockSize, hholds.blocks, by rw [hholds.fecBlocks], hholds.outBlocks⟩,
          hcount, Nat.le_of_not_lt hfec⟩

/-- No block at hand has the number of a data packet that is missing. -/
theorem header_ne {d : FECDecoder} (hd : d.Holds r.seq r.data G) {i : ℕ} (hi : i ∉ r.data) :
    ∀ b ∈ d.blocks, b.header.block ≠ i := by
  intro b hb hbi
  rw [hd.blocks] at hb
  obtain ⟨j, hj, rfl⟩ := List.mem_map.mp hb
  rw [(Sequence.header_block (Nat.lt_add_right r.seq.nFecBlocks (data_lt hj))).2.1] at hbi
  exact hi (hbi ▸ hj)

end Reception

end WfbBridge
