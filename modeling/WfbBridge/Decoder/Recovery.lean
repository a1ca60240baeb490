import Mathlib
import WfbBridge.Decoder.Stream

/-!
# Erasure recovery

If every sequence keeps a data packet with a longest message, then each sequence
of which enough packets arrive is output completely.  The condition has two uses:
a data packet in every sequence means that no FEC block is left over for the next
one, and a longest message gives the decoder the right `m_block_size`.
-/

namespace WfbBridge

open Checked Fec

/-- A data packet with a longest message of the sequence arrives. -/
def Reception.KeepsLongest (r : Reception) : Prop :=
  ∃ i ∈ r.data, (r.seq.msg i).length = longest r.seq.msgs

/-- The matrix `resolve` builds when `decode` runs is inverted. -/
def FECDecoder.Inverts (d : FECDecoder) : Prop :=
  ∀ b, d.blocks.head? = some b →
    (invertMat (resolveMatrix d.fecIdxs
      (FECDecoder.erasedIdxs (d.slots b.header.nBlocks)))).2 = false

/-! ## Payloads -/

@[simp] theorem payloads_append (a b : List (List (FECBlock × ℕ))) :
    payloads (a ++ b) = payloads a ++ payloads b := by
  simp [payloads]

@[simp] theorem payloads_replicate_nil (m : ℕ) : payloads (List.replicate m []) = [] := by
  simp [payloads]

theorem payloads_range {q : Sequence} {first : ℕ} (h : first ≤ q.nBlocks) :
    payloads ((List.range first).map fun i ↦ [(q.block i, i)]) =
      (List.range first).map fun i ↦ some (q.msg i) := by
  have hflat : ((List.range first).map fun i ↦ [(q.block i, i)]).flatten =
      (List.range first).map fun i ↦ (q.block i, i) := by
    rw [← List.flatMap_def, ← List.map_eq_flatMap]
  rw [payloads, hflat, List.map_map]
  refine List.map_congr_left fun i hi ↦ ?_
  exact Sequence.payload_block ((List.mem_range.mp hi).trans_le h)

/-- The messages, cut in two. -/
theorem Sequence.map_some_msgs {q : Sequence} {first : ℕ} (hle : first ≤ q.nBlocks) :
    ((List.range first).map fun i ↦ some (q.msg i)) ++
      ((List.range' first (q.nBlocks - first)).map fun i ↦ some (q.msg i)) = q.msgs.map some := by
  have hrange := List.range'_append_1 (s := 0) (m := first) (n := q.nBlocks - first)
  rw [Nat.zero_add, Nat.add_sub_cancel' hle] at hrange
  rw [← List.map_append, List.range_eq_range', hrange, ← List.range_eq_range',
    ← Sequence.map_msg_range, List.map_map]
  rfl

/-! ## One sequence -/

namespace Reception

variable {r : Reception}

theorem KeepsLongest.heldSize (h : r.KeepsLongest) : r.seq.heldSize r.data = r.seq.size := by
  obtain ⟨i, hi, hlen⟩ := h
  refine le_antisymm (r.seq.heldSize_le r.data) ?_
  rw [Sequence.size, ← hlen]
  exact Sequence.le_heldSize hi

theorem KeepsLongest.data_ne (h : r.KeepsLongest) : r.data ≠ [] := by
  obtain ⟨i, hi, -⟩ := h
  exact List.ne_nil_of_mem hi

theorem payloads_dataOut {first : ℕ} (hle : first ≤ r.seq.nBlocks) (hall : ∀ i < first, i ∈ r.data)
    (hnot : first ∉ r.data) : payloads (Phase.dataOut r.seq r.data) =
      (List.range first).map fun i ↦ some (r.seq.msg i) := by
  obtain ⟨m, hm⟩ := Phase.dataOut_eq (q := r.seq) r.sorted_data hall hnot
  rw [hm, payloads_append, payloads_replicate_nil, List.append_nil, payloads_range hle]

theorem mem_data_of_length (h : r.data.length = r.seq.nBlocks) {i : ℕ} (hi : i < r.seq.nBlocks) :
    i ∈ r.data := by
  have hlen := Sequence.length_erased r.sorted_data fun _ h ↦ data_lt h
  have hnil : r.seq.erased r.data = [] := List.length_eq_zero_iff.mp (by omega)
  by_contra hnot
  have := Sequence.mem_erased.mpr ⟨hi, hnot⟩
  rw [hnil] at this
  exact List.not_mem_nil this

/-- With all its data packets, a sequence keeps a longest message and has enough packets. -/
theorem all_data (h : ∀ k < r.seq.nBlocks, k ∈ r.got) :
    r.KeepsLongest ∧ r.seq.nBlocks ≤ r.got.length := by
  have hdata : ∀ k < r.seq.nBlocks, k ∈ r.data := fun k hk ↦
    List.mem_filter.mpr ⟨h k hk, decide_eq_true hk⟩
  constructor
  · obtain ⟨m, hm, hlen⟩ := exists_longest r.seq.msgs_ne
    obtain ⟨i, hi⟩ := List.mem_iff_getElem?.mp hm
    have hlt : i < r.seq.nBlocks := (List.getElem?_eq_some_iff.mp hi).1
    refine ⟨i, hdata i hlt, ?_⟩
    rw [Option.some.inj ((Sequence.msg_eq hlt).symm.trans hi)]
    exact hlen
  · have hsub : (List.range r.seq.nBlocks).Subset r.got := fun k hk ↦ h k (List.mem_range.mp hk)
    have hle := (List.nodup_range.subperm hsub).length_le
    rwa [List.length_range] at hle

/-- The arguments of `decode`, when it is called. -/
theorem enough {G : List FECBlock} (hne : r.data ≠ []) (hlt : r.data.length < r.seq.nBlocks)
    (hcount : r.data.length + G.length = r.seq.nBlocks) : r.seq.Enough r.data G := by
  refine ⟨hne, r.sorted_data, fun _ h ↦ data_lt h, hcount, ?_⟩
  rintro rfl
  rw [List.length_nil] at hcount
  omega

/-- `decode` releases every message from the first missing one on,
if the missing ones fit into `m_block_size`. -/
theorem payloads_rebuild {R : List ℕ} (hR : r.seq.FecPackets R)
    (henough : r.seq.Enough r.data (R.map r.seq.block))
    (hfits : ∀ i < r.seq.nBlocks, i ∉ r.data → (r.seq.msg i).length + 2 ≤ r.seq.heldSize r.data) :
    ∃ out first, r.seq.rebuild r.data (R.map r.seq.block) = .ok out ∧
      (r.seq.erased r.data).head? = some first ∧
      payloads [out] = (List.range' first (r.seq.nBlocks - first)).map fun i ↦
        some (r.seq.msg i) := by
  obtain ⟨-, rb, i₀, first, -, hfirst, hout, hrb, hdata⟩ := henough.rebuild_recovers hR
  have hblock : ∀ i < r.seq.nBlocks, (rb i).length = (r.seq.msg i).length ∧
      (rb i).payload = some (r.seq.msg i) ∧ (r.seq.msg i).length ≤ r.seq.heldSize r.data := by
    intro i hi
    by_cases hiI : i ∈ r.data
    · have hheld := Sequence.le_heldSize (q := r.seq) hiI
      rw [hrb i hiI]
      exact ⟨Sequence.length_block hi, Sequence.payload_block hi, by omega⟩
    · have hi' := hdata i (Sequence.mem_erased.mpr ⟨hi, hiI⟩)
      have hfit := hfits i hi hiI
      exact ⟨Sequence.length_rebuilt hi' (Sequence.two_le_heldSize henough.ne) hi,
        Sequence.payload_rebuilt hi' (r.seq.heldSize_le r.data) hi hfit, by omega⟩
  have hlt : ∀ i ∈ List.range' first (r.seq.nBlocks - first), i < r.seq.nBlocks := by
    intro i hi
    rw [List.mem_range'_1] at hi
    omega
  refine ⟨_, first, hout, hfirst, ?_⟩
  rw [Sequence.releaseFrom, List.filter_eq_self.mpr, payloads, List.flatten_singleton, List.map_map]
  · exact List.map_congr_left fun i hi ↦ (hblock i (hlt i hi)).2.1
  · intro i hi
    obtain ⟨hlen, -, hle⟩ := hblock i (hlt i hi)
    rw [decide_eq_true_eq, hlen]
    exact hle

/-- A longest message is as long as any missing one. -/
theorem KeepsLongest.fits (h : r.KeepsLongest) :
    ∀ i < r.seq.nBlocks, i ∉ r.data → (r.seq.msg i).length + 2 ≤ r.seq.heldSize r.data := by
  intro i _ _
  rw [h.heldSize]
  exact r.seq.length_msg_le i

/-- The sequence is output completely when all data packets arrive. -/
theorem payloads_full (hfull : r.data.length = r.seq.nBlocks) :
    payloads (Phase.dataOut r.seq r.data ++ List.replicate r.fec.length []) =
      r.seq.msgs.map some := by
  have hall := Sequence.map_some_msgs (q := r.seq) le_rfl
  rw [Nat.sub_self, List.range'_zero, List.map_nil, List.append_nil] at hall
  rw [payloads_append, payloads_replicate_nil, List.append_nil, ← hall]
  exact payloads_dataOut le_rfl (fun i hi ↦ mem_data_of_length hfull hi)
    (fun hmem ↦ absurd (data_lt hmem) (lt_irrefl _))

/-- The sequence is output completely when `decode` rebuilds the missing messages. -/
theorem run_decoded {R R₂ : List ℕ} {k : ℕ} (hne : r.data ≠ [])
    (hlt : r.data.length < r.seq.nBlocks) (hfec : r.fec = R ++ [k] ++ R₂)
    (hcount : r.data.length + ((R ++ [k]).map r.seq.block).length = r.seq.nBlocks)
    (hfits : ∀ i < r.seq.nBlocks, i ∉ r.data → (r.seq.msg i).length + 2 ≤ r.seq.heldSize r.data) :
    ∃ out, r.seq.rebuild r.data ((R ++ [k]).map r.seq.block) = .ok out ∧
      payloads (Phase.dataOut r.seq r.data ++ (List.replicate R.length [] ++ [out] ++
        List.replicate R₂.length [])) = r.seq.msgs.map some := by
  obtain ⟨out, first, hout, hfirst, hpay⟩ := payloads_rebuild
    (fecPackets (R := R ++ [k]) (by rw [hfec]; exact List.sublist_append_left _ _))
    (enough hne hlt hcount) hfits
  obtain ⟨hflt, hfnot, hfall⟩ := Sequence.head_erased hfirst
  refine ⟨out, hout, ?_⟩
  rw [payloads_append, payloads_append, payloads_append, payloads_replicate_nil,
    payloads_replicate_nil, hpay, payloads_dataOut hflt.le hfall hfnot, List.nil_append,
    List.append_nil]
  exact Sequence.map_some_msgs hflt.le

/-- A sequence that keeps a longest message, entered with nothing left over. -/
theorem KeepsLongest.run (h : r.KeepsLongest) : ∃ outs ph,
    Run.run (Phase.step r.seq) (.collecting [] []) r.got = .ok (outs, ph) ∧ ph.leftover = [] ∧
      (r.seq.nBlocks ≤ r.got.length → payloads outs = r.seq.msgs.map some) := by
  rcases r.run_cases [] with ⟨hfull, hrun⟩ | ⟨hne, hlt, R, k, R₂, hfec, hcount, hdec⟩ |
    ⟨hne, hlt, hcount, hrun⟩ | ⟨hnil, -⟩
  · exact ⟨_, _, hrun, rfl, fun _ ↦ payloads_full hfull⟩
  · rw [List.nil_append] at hcount hdec
    obtain ⟨out, hout, hpay⟩ := run_decoded hne hlt hfec hcount h.fits
    rw [hout, ok_bind] at hdec
    exact ⟨_, _, hdec, rfl, fun _ ↦ hpay⟩
  · refine ⟨_, _, hrun, ?_, fun hlen ↦ ?_⟩
    · obtain ⟨i, I, hI⟩ := List.exists_cons_of_ne_nil hne
      rw [hI]
      rfl
    · rw [r.got_eq, List.length_append] at hlen
      rw [List.length_nil, Nat.add_zero] at hcount
      omega
  · exact absurd hnil h.data_ne

/-- In a sequence entered with nothing left over,
`decode` always gets an invertible matrix. -/
theorem along_inverts {d : FECDecoder} (hat : d.At r.seq (.collecting [] [])) :
    Run.Along FECDecoder.deliver (FECDecoder.WhenDecoding FECDecoder.Inverts) d r.packets := by
  refine along_whenDecoding hat fun R d' hR hholds hcount hlt b hb ↦ ?_
  rw [List.nil_append] at hholds hcount
  have hmem : b ∈ r.data.map r.seq.block := by
    rw [← hholds.blocks]
    exact List.mem_of_mem_head? hb
  obtain ⟨i, hi, rfl⟩ := List.mem_map.mp hmem
  have henough := enough (List.ne_nil_of_mem hi) hlt hcount
  have hn := (Sequence.header_block (Nat.lt_add_right r.seq.nFecBlocks (data_lt hi))).2.2.1
  rw [hn, Sequence.slots_eq hholds.blocks henough.lt, Sequence.erasedIdxs_slots,
    FECDecoder.fecIdxs, hholds.fecBlocks]
  exact (henough.rebuild_recovers (fecPackets hR.sublist)).1

end Reception

/-! ## All sequences -/

theorem near_of_keepsLongest {rs : List Reception} (h : ∀ r ∈ rs, r.KeepsLongest) : Near rs := by
  have hheard : heard rs = List.range rs.length := by
    rw [heard, List.filter_eq_self.mpr]
    · rw [List.zipIdx_map_snd, List.range_eq_range']
    · intro rj hrj
      have hmem : rj.1 ∈ rs := List.fst_mem_of_mem_zipIdx hrj
      have hne := (h _ hmem).data_ne
      rw [decide_eq_true_eq]
      intro hnil
      exact hne (by rw [Reception.data, hnil]; rfl)
  rw [Near, hheard, List.isChain_range]
  intro m _
  omega

/-- One sequence after the other, with nothing left over in between. -/
theorem FECDecoder.Follows.receive_longest {P : FecParams} {pre post : List Reception}
    {r : Reception} {d : FECDecoder} (hd : d.Follows P pre []) (hnear : Near (pre ++ r :: post))
    (hseq : P.IsSequence pre.length r.seq) (hlong : r.KeepsLongest) :
    ∃ outs d', d.receive r = .ok (outs, d') ∧ d'.Follows P (pre ++ [r]) [] ∧
      (r.seq.nBlocks ≤ r.got.length → payloads outs = r.seq.msgs.map some) := by
  obtain ⟨outs, ph, hrun, hleft, hout⟩ := hlong.run
  obtain ⟨d', hd', hfollows⟩ := hd.receive hnear hseq hrun
  rw [hleft] at hfollows
  exact ⟨outs, d', hd', hfollows, hout⟩

/-- All sequences that are left, one after the other. -/
theorem FECDecoder.Follows.run_longest {P : FecParams} {pre : List Reception} {d : FECDecoder}
    (hd : d.Follows P pre []) (rs : List Reception)
    (hseq : ∀ (j : ℕ) (r : Reception), rs[j]? = some r → P.IsSequence (pre.length + j) r.seq)
    (hlong : ∀ r ∈ pre ++ rs, r.KeepsLongest) :
    ∃ outs d', Run.run FECDecoder.receive d rs = .ok (outs, d') ∧
      List.Forall₂ (fun r out ↦ r.seq.nBlocks ≤ r.got.length →
        payloads out = r.seq.msgs.map some) rs outs := by
  obtain ⟨outs, d', hrun, -, hall⟩ := Run.run_inv FECDecoder.receive d rs
    (fun done outs d ↦ d.Follows P (pre ++ done) [] ∧ List.Forall₂ (fun r out ↦
      r.seq.nBlocks ≤ r.got.length → payloads out = r.seq.msgs.map some) done outs)
    ⟨by rwa [List.append_nil], .nil⟩ (by
      rintro done r outs d ⟨post, rfl⟩ ⟨hd, hall⟩
      rw [← List.append_assoc] at hlong
      have hj := hseq done.length r (by simp)
      rw [← List.length_append] at hj
      obtain ⟨out, d', hd', hfollows, hout⟩ := hd.receive_longest (near_of_keepsLongest hlong) hj
        (hlong r (by simp))
      rw [List.append_assoc] at hfollows
      exact ⟨out, d', hd', hfollows, List.rel_append hall (.cons hout .nil)⟩)
  exact ⟨outs, d', hrun, hall⟩

/-- All sequences, one after the other. -/
theorem run_receive_longest {P : FecParams} (rs : List Reception)
    (hseq : ∀ (j : ℕ) (r : Reception), rs[j]? = some r → P.IsSequence j r.seq)
    (hlong : ∀ r ∈ rs, r.KeepsLongest) :
    ∃ outs d, Run.run FECDecoder.receive {} rs = .ok (outs, d) ∧
      List.Forall₂ (fun r out ↦ r.seq.nBlocks ≤ r.got.length →
        payloads out = r.seq.msgs.map some) rs outs :=
  FECDecoder.Follows.fresh.run_longest rs (by simpa using hseq) hlong

/-- Erasure recovery: under every loss pattern in which each sequence keeps a data packet
with a longest message, each sequence of which as many packets arrive as it has
messages is output completely, in order and once; and `resolve` never meets a
matrix that cannot be inverted. -/
theorem decoder_recovers (P : FecParams) (ops : List FECEncoder.Op) (hops : P.Admits ops) :
    ∃ qs, P.Sends ops qs ∧ ∀ rs : List Reception, rs.map Reception.seq = qs →
      (∀ r ∈ rs, r.KeepsLongest) →
      (∃ outs d, Run.run FECDecoder.receive {} rs = .ok (outs, d) ∧
        List.Forall₂ (fun r out ↦ r.seq.nBlocks ≤ r.got.length →
          payloads out = r.seq.msgs.map some) rs outs) ∧
      EveryDecode (fun _ d ↦ d.Inverts) rs := by
  obtain ⟨qs, hsends⟩ := P.exists_sends hops
  refine ⟨qs, hsends, fun rs hrs hlong ↦ ?_⟩
  have hnear := near_of_keepsLongest hlong
  constructor
  · refine run_receive_longest rs (fun j r hj ↦ hsends.isSequence j r.seq ?_) hlong
    rw [← hrs, List.getElem?_map, hj, Option.map_some]
  · refine Run.along_of_inv (P := fun pre d ↦ d.Follows P pre []) .fresh ?_ ?_
    · rintro pre r d ⟨post, rfl⟩ hd
      have hne : r.got ≠ [] := by
        have := (hlong r (by simp)).data_ne
        intro hnil
        exact this (by rw [Reception.data, hnil]; rfl)
      exact Reception.along_inverts
        (.entry (hd.prev_ne hnear hne (hsends.isSequence_of_append hrs)) hd.between)
    · rintro pre r d out d' ⟨post, rfl⟩ hd hrun
      obtain ⟨out', d'', hd'', hfollows, -⟩ := hd.receive_longest hnear
        (hsends.isSequence_of_append hrs) (hlong r (by simp))
      obtain ⟨-, rfl⟩ := Prod.mk.inj (Except.ok.inj (hd''.symm.trans hrun))
      exact hfollows

/-- The second of two messages is lost, and rebuilt from the first and the FEC packet. -/
theorem decoder_recovers_one_loss :
    ∃ r : Reception, r.seq.msgs = [[1, 2, 3], [7]] ∧ r.got = [0, 2] ∧
      ∃ out d, Run.run FECDecoder.receive {} [r] = .ok ([out], d) ∧
        payloads out = [some [1, 2, 3], some [7]] := by
  obtain ⟨qs, hsends, h⟩ := decoder_recovers
    { numBlocks := 2, numFecBlocks := 1, maxBlockSize := 10 } [.push [1, 2, 3], .push [7]]
    (by decide)
  have hmsgs : qs.map Sequence.msgs = [[[1, 2, 3], [7]]] := hsends.msgs
  obtain ⟨q, rfl, hq⟩ := List.map_eq_singleton_iff.mp hmsgs
  have hn : q.nPackets = 3 := by
    rw [Sequence.nPackets, Sequence.nBlocks, (hsends.isSequence 0 q rfl).nFecBlocks, hq]
    rfl
  let r : Reception := ⟨q, [0, 2], by rw [hn]; decide⟩
  have hlong : r.KeepsLongest := ⟨0, by simp [r, Reception.data, Sequence.nBlocks, hq], by
    simp [r, Sequence.msg, hq, longest]⟩
  obtain ⟨⟨outs, d, hrun, hall⟩, -⟩ := h [r] rfl (by simpa using hlong)
  obtain ⟨out, outs', hout, hnil, rfl⟩ := List.forall₂_cons_left_iff.mp hall
  obtain rfl := List.forall₂_nil_left_iff.mp hnil
  refine ⟨r, hq, rfl, out, d, hrun, ?_⟩
  rw [hout (by simp [r, Sequence.nBlocks, hq])]
  simp [r, hq]

end WfbBridge
