import Mathlib
import WfbBridge.Decoder.Integrity

/-!
# Immediate delivery

The messages before the first gap of a sequence are output as their packets arrive,
whatever was lost before, and are not output again by `decode`.

The only thing that can prevent it is an FEC block left over from a sequence of
shorter messages: `decode` then reads past its end.
-/

namespace WfbBridge

open Checked

/-- The FEC blocks have all the bytes `fec_decode` reads. -/
def FECDecoder.ReadsInside (d : FECDecoder) : Prop :=
  ∀ b ∈ d.fecBlocks, d.blockSize ≤ b.fecData.length

/-- What the packets of a sequence make the decoder output, packet by packet, when the
messages before the first gap come at once. -/
structure Prompt (r : Reception) (out : List (List (FECBlock × ℕ))) : Prop where
  /-- message `i` is output by the call that gets packet `i` -/
  at_once : ∀ i < r.seq.nBlocks, (∀ j ≤ i, j ∈ r.got) → r.got[i]? = some i ∧
    ∃ b, out[i]? = some [(b, i)] ∧ b.payload = some (r.seq.msg i)
  /-- and by no other -/
  once : ∀ i < r.seq.nBlocks, (∀ j ≤ i, j ∈ r.got) → ∀ (t : ℕ) (bs : List (FECBlock × ℕ)),
    out[t]? = some bs → t ≠ i → ∀ b ∈ bs, b.2 ≠ i
  /-- no block of another sequence is output -/
  own : ∀ bs ∈ out, ∀ b ∈ bs, b.1.header.seqNum = r.seq.seqNum
  /-- if all data packets arrive, all messages are output -/
  complete : (∀ i < r.seq.nBlocks, i ∈ r.got) → payloads out = r.seq.msgs.map some

namespace Reception

variable {r : Reception} {G : List FECBlock} {out : List (List (FECBlock × ℕ))}

variable (r out) in
/-- The blocks before the gap come one by one, and what comes later are blocks after it. -/
def InOrder : Prop :=
  ∃ rest, out = ((List.range r.gap).map fun i ↦ [(r.seq.block i, i)]) ++ rest ∧
    ∀ bs ∈ rest, ∀ b ∈ bs, r.gap ≤ b.2 ∧ b.2 < r.seq.nBlocks ∧ b.1.header.seqNum = r.seq.seqNum

theorem inOrder_dataOut {rest : List (List (FECBlock × ℕ))}
    (hrest : ∀ bs ∈ rest, ∀ b ∈ bs,
      r.gap ≤ b.2 ∧ b.2 < r.seq.nBlocks ∧ b.1.header.seqNum = r.seq.seqNum) :
    r.InOrder (Phase.dataOut r.seq r.data ++ rest) := by
  obtain ⟨-, hnot, hall⟩ := r.gap_spec
  obtain ⟨m, hm⟩ := Phase.dataOut_eq (q := r.seq) r.sorted_data hall hnot
  refine ⟨List.replicate m [] ++ rest, by rw [hm, List.append_assoc], fun bs hbs b hb ↦ ?_⟩
  rcases List.mem_append.mp hbs with hbs | hbs
  · rw [List.eq_of_mem_replicate hbs] at hb
    exact absurd hb List.not_mem_nil
  · exact hrest bs hbs b hb

theorem inOrder_replicate (m : ℕ) :
    r.InOrder (Phase.dataOut r.seq r.data ++ List.replicate m []) := by
  refine inOrder_dataOut fun bs hbs b hb ↦ ?_
  rw [List.eq_of_mem_replicate hbs] at hb
  exact absurd hb List.not_mem_nil

/-- What `decode` releases lies after the gap, and carries the number of the sequence. -/
theorem mem_rebuild (henough : r.seq.Enough r.data G) {o : List (FECBlock × ℕ)}
    (ho : r.seq.rebuild r.data G = .ok o) {b : FECBlock × ℕ} (hb : b ∈ o) :
    r.gap ≤ b.2 ∧ b.2 < r.seq.nBlocks ∧ b.1.header.seqNum = r.seq.seqNum := by
  obtain ⟨rb, i₀, first, hi₀, hfirst, rfl, hrb, hdata⟩ := henough.rebuild_frame ho
  obtain ⟨i, hi, rfl⟩ := List.mem_map.mp hb
  have hrange := List.mem_range'_1.mp (List.mem_filter.mp hi).1
  have hlt : i < r.seq.nBlocks := by omega
  refine ⟨by rw [gap_eq hfirst]; exact hrange.1, hlt, ?_⟩
  by_cases hiI : i ∈ r.data
  · rw [hrb i hiI]
    exact (Sequence.header_block (Nat.lt_add_right r.seq.nFecBlocks hlt)).1
  · obtain ⟨x, hx, -⟩ := hdata i (Sequence.mem_erased.mpr ⟨hlt, hiI⟩)
    simp only [FECBlock.header, FECBlock.byte, hx]
    exact UInt8.toNat_ofNat_of_lt' r.seq.seqNum_lt

/-- FEC blocks of any sequences have numbers in the range of the code. -/
theorem longEnough {seqNum : ℕ} (hG : Leftover seqNum G) {R : List ℕ} (hR : ∀ k ∈ R, k ∈ r.fec)
    (sz : ℕ) (h : ∀ b ∈ G ++ R.map r.seq.block, sz ≤ b.fecData.length) :
    Sequence.LongEnough sz (G ++ R.map r.seq.block) := by
  intro b hb
  refine ⟨?_, h b hb⟩
  obtain ⟨q, k, hge, hlt, rfl⟩ : ∃ (q : Sequence) (k : ℕ),
      q.nBlocks ≤ k ∧ k < q.nPackets ∧ b = q.block k := by
    rcases List.mem_append.mp hb with hb | hb
    · exact hG.fec b hb
    · obtain ⟨k, hk, rfl⟩ := List.mem_map.mp hb
      exact ⟨r.seq, k, fec_ge (hR k hk), fec_lt (hR k hk), rfl⟩
  have := q.nFecBlocks_le
  rw [Sequence.fecIdx_block hge hlt]
  simp only [Sequence.nPackets] at hlt
  omega

/-- A sequence in which `decode` stays inside its blocks. -/
theorem run_inOrder {d : FECDecoder} {seqNum : ℕ} (hG : Leftover seqNum G)
    (hat : d.At r.seq (.collecting [] G))
    (h : Run.Along FECDecoder.deliver (FECDecoder.WhenDecoding FECDecoder.ReadsInside) d
      r.packets) :
    ∃ outs ph, Run.run (Phase.step r.seq) (.collecting [] G) r.got = .ok (outs, ph) ∧
      r.InOrder outs := by
  rcases r.run_cases G with ⟨-, hrun⟩ | ⟨hdata, hlt, R, k, R₂, hfec, hcount, hdec⟩ |
    ⟨-, -, -, hrun⟩ | ⟨hnil, ph, hrun, -⟩
  · exact ⟨_, _, hrun, inOrder_replicate _⟩
  · obtain ⟨d', hholds, hinside⟩ := decode_of_along hat hdata hfec hcount h
    have henough := enough hdata hlt hcount
    have hlong := longEnough (R := R ++ [k]) hG (fun j hj ↦ by
      rw [hfec]
      exact List.mem_append_left _ hj) (r.seq.heldSize r.data) (by
        intro b hb
        rw [← hholds.blockSize]
        exact hinside b (hholds.fecBlocks ▸ hb))
    obtain ⟨o, ho⟩ := henough.rebuild_ok hlong
    rw [ho, ok_bind] at hdec
    refine ⟨_, _, hdec, inOrder_dataOut fun bs hbs b hb ↦ ?_⟩
    simp only [List.mem_append, List.mem_singleton, List.mem_replicate] at hbs
    rcases hbs with (⟨-, rfl⟩ | rfl) | ⟨-, rfl⟩
    · exact absurd hb List.not_mem_nil
    · exact mem_rebuild henough ho hb
    · exact absurd hb List.not_mem_nil
  · exact ⟨_, _, hrun, inOrder_replicate _⟩
  · have hout : Phase.dataOut r.seq r.data ++ List.replicate r.got.length [] =
        List.replicate r.got.length [] := by
      rw [hnil]
      rfl
    exact ⟨_, _, hrun, hout ▸ inOrder_replicate _⟩

theorem lt_gap {i : ℕ} (hi : i < r.seq.nBlocks) (hall : ∀ j ≤ i, j ∈ r.got) : i < r.gap := by
  by_contra hge
  refine r.gap_spec.2.1 (List.mem_filter.mpr ⟨hall r.gap (by omega), ?_⟩)
  rw [decide_eq_true_eq]
  omega

theorem InOrder.prompt (h : r.InOrder out) : Prompt r out := by
  obtain ⟨rest, rfl, hrest⟩ := h
  obtain ⟨hle, -, hall⟩ := r.gap_spec
  have hat : ∀ t < r.gap, (((List.range r.gap).map fun i ↦ [(r.seq.block i, i)]) ++ rest)[t]? =
      some [(r.seq.block t, t)] := by
    intro t ht
    rw [List.getElem?_append_left (by simpa using ht), List.getElem?_map, List.getElem?_range ht,
      Option.map_some]
  have hlater : ∀ t bs, r.gap ≤ t →
      (((List.range r.gap).map fun i ↦ [(r.seq.block i, i)]) ++ rest)[t]? = some bs →
        bs ∈ rest := by
    intro t bs ht hbs
    rw [List.getElem?_append_right (by simpa using ht)] at hbs
    exact List.mem_of_getElem? hbs
  refine ⟨fun i hi hi' ↦ ?_, fun i hi hi' t bs hbs hne b hb ↦ ?_, fun bs hbs b hb ↦ ?_,
    fun hgot ↦ ?_⟩
  · have hgap := lt_gap hi hi'
    refine ⟨?_, r.seq.block i, hat i hgap, Sequence.payload_block hi⟩
    obtain ⟨I, hI, -⟩ := Phase.exists_range_append r.sorted_data hall
    rw [r.got_eq, hI, List.append_assoc, List.getElem?_append_left (by simpa using hgap),
      List.getElem?_range hgap]
  · have hgap := lt_gap hi hi'
    by_cases ht : t < r.gap
    · rw [hat t ht] at hbs
      obtain rfl := Option.some.inj hbs
      obtain rfl := List.mem_singleton.mp hb
      exact hne
    · have := (hrest bs (hlater t bs (by omega) hbs) b hb).1
      omega
  · rcases List.mem_append.mp hbs with hbs | hbs
    · obtain ⟨i, hi, rfl⟩ := List.mem_map.mp hbs
      obtain rfl := List.mem_singleton.mp hb
      have hlt := (List.mem_range.mp hi).trans_le hle
      exact (Sequence.header_block (Nat.lt_add_right r.seq.nFecBlocks hlt)).1
    · exact (hrest bs hbs b hb).2.2
  · -- nothing can come after the last message
    have hgap : r.gap = r.seq.nBlocks := by
      by_contra hne
      have hlt : r.gap < r.seq.nBlocks := by omega
      exact r.gap_spec.2.1 (List.mem_filter.mpr ⟨hgot _ hlt, by simpa using hlt⟩)
    have hnil : rest.flatten = [] := by
      rw [List.flatten_eq_nil_iff]
      intro bs hbs
      refine List.eq_nil_iff_forall_not_mem.mpr fun b hb ↦ ?_
      have := hrest bs hbs b hb
      omega
    have hmsgs := Sequence.map_some_msgs (q := r.seq) hle
    rw [hgap, Nat.sub_self, List.range'_zero, List.map_nil, List.append_nil] at hmsgs
    rw [payloads_append, payloads_range hle, hgap, hmsgs, payloads, hnil]
    exact List.append_nil _

end Reception

/-- Immediate delivery: whatever packets are lost, the messages before the first gap of a
sequence are output as their packets arrive, and never again, if `decode` stays inside
its blocks. -/
theorem decoder_output_prompt (P : FecParams) (ops : List FECEncoder.Op) (hops : P.Admits ops) :
    ∃ qs, P.Sends ops qs ∧ ∀ rs : List Reception, rs.map Reception.seq = qs → Near rs →
      EveryDecode (fun _ d ↦ d.ReadsInside) rs →
      ∃ outs d, Run.run FECDecoder.receive {} rs = .ok (outs, d) ∧ List.Forall₂ Prompt rs outs := by
  obtain ⟨qs, hsends⟩ := P.exists_sends hops
  refine ⟨qs, hsends, fun rs hrs hnear hinside ↦ ?_⟩
  refine receive_all hsends hrs hnear hinside fun r d seqNum G hG hat halong ↦ ?_
  by_cases hr : r.got = []
  · refine ⟨[], .collecting [] G, by rw [hr]; rfl, Reception.InOrder.prompt ?_⟩
    have hdata : r.data = [] := by rw [Reception.data, hr]; rfl
    have h := Reception.inOrder_replicate (r := r) 0
    rwa [hdata] at h
  · obtain ⟨out, ph, hrun, hout⟩ := Reception.run_inOrder hG (hat hr).2 halong
    exact ⟨out, ph, hrun, hout.prompt⟩

/-- The second of two messages is lost, and the first one comes at once. -/
theorem decoder_output_prompt_one_loss :
    ∃ r : Reception, r.seq.msgs = [[1, 2, 3], [7]] ∧ r.got = [0, 2] ∧
      ∃ out d, Run.run FECDecoder.receive {} [r] = .ok ([out], d) ∧ Prompt r out := by
  obtain ⟨qs, hsends, h⟩ := decoder_output_prompt
    { numBlocks := 2, numFecBlocks := 1, maxBlockSize := 10 } [.push [1, 2, 3], .push [7]]
    (by decide)
  have hmsgs : qs.map Sequence.msgs = [[[1, 2, 3], [7]]] := hsends.msgs
  obtain ⟨q, rfl, hq⟩ := List.map_eq_singleton_iff.mp hmsgs
  have hn : q.nPackets = 3 := by
    rw [Sequence.nPackets, Sequence.nBlocks, (hsends.isSequence 0 q rfl).nFecBlocks, hq]
    rfl
  let r : Reception := ⟨q, [0, 2], by rw [hn]; decide⟩
  have hat : ({} : FECDecoder).At q (.collecting [] []) := .entry (Nat.ne_of_lt q.seqNum_pos) .fresh
  obtain ⟨outs, d, hrun, hall⟩ := h [r] rfl (List.isChain_singleton 0) ⟨by
    refine Reception.along_whenDecoding (r := r) hat fun R d' hR hholds _ _ b hb ↦ ?_
    rw [hholds.fecBlocks] at hb
    obtain ⟨k, hk, rfl⟩ := List.mem_map.mp hb
    rw [hholds.blockSize, Sequence.fecData_block, Sequence.length_body]
    exact Sequence.heldSize_le _, fun _ _ _ ↦ trivial⟩
  obtain ⟨out, outs', hout, hnil, rfl⟩ := List.forall₂_cons_left_iff.mp hall
  obtain rfl := List.forall₂_nil_left_iff.mp hnil
  exact ⟨r, hq, rfl, out, d, hrun, hout⟩

/-- The first FEC packet of a sequence of short messages is left over, and `decode` reads
59 bytes past its end in the next sequence.  The first message of the sequence after that is
not output, although its packet arrives. -/
theorem leftover_fec_block_stops_delivery :
    ¬ ∃ out, FecParams.transmit { numBlocks := 3, numFecBlocks := 2, maxBlockSize := 62 }
      [.push [1], .push [2], .push [3], .push (List.replicate 60 4), .push [5], .push [6],
        .push [7], .push [8], .push [9]] [3, 5, 9, 10] = .ok out ∧ some [7] ∈ out := by
  rintro ⟨out, hout, -⟩
  have herror : FecParams.transmit { numBlocks := 3, numFecBlocks := 2, maxBlockSize := 62 }
      [.push [1], .push [2], .push [3], .push (List.replicate 60 4), .push [5], .push [6],
        .push [7], .push [8], .push [9]] [3, 5, 9, 10] = .error .bytes := by
    decide +kernel
  exact absurd (herror.symm.trans hout) (by simp)

end WfbBridge
