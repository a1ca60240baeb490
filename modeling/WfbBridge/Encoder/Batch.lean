import Mathlib
import WfbBridge.Encoder.Format

/-!
# One batch

An encoder that gets as many messages as it has data blocks, with no limit on its numbers of
blocks but that they fit into a byte.  `fec_encode` works for 128 data blocks and for any number of
FEC blocks; with more data blocks it reads outside its table.
-/

namespace WfbBridge

open Checked Fec

namespace FECEncoder

variable {e : FECEncoder} {msgs : List (List UInt8)}

/-- One more message of a batch. -/
theorem push_concat (hle : e.maxBlockSize ≤ 65531) (hn : e.numBlocks < 256)
    (hpos : 0 < e.numFecBlocks) (hlt : msgs.length < e.numBlocks) {m : List UInt8}
    (hm : m.length + 2 ≤ e.maxBlockSize) :
    { e with inBlocks := msgs.mapIdx e.filledBlock }.push m =
      let e' := { e with inBlocks := (msgs ++ [m]).mapIdx e.filledBlock }
      if msgs.length + 1 = e.numBlocks then e'.encodeBlocks else .ok e' := by
  have hpush := push_filled (e := { e with inBlocks := msgs.mapIdx e.filledBlock }) hle hn hpos
    (by rwa [List.length_mapIdx]) hm
  simp only [List.length_mapIdx] at hpush
  rw [hpush, List.mapIdx_concat]
  rfl

/-- A batch that is not full is kept. -/
theorem foldlM_push_of_lt (hle : e.maxBlockSize ≤ 65531) (hn : e.numBlocks < 256)
    (hpos : 0 < e.numFecBlocks) (hin : e.inBlocks = []) (hlt : msgs.length < e.numBlocks)
    (hfit : ∀ m ∈ msgs, m.length + 2 ≤ e.maxBlockSize) :
    msgs.foldlM push e = .ok { e with inBlocks := msgs.mapIdx e.filledBlock } := by
  induction msgs using List.reverseRecOn with
  | nil =>
      change Except.ok e = .ok { e with inBlocks := [] }
      rw [← hin]
  | append_singleton msgs m ih =>
      rw [List.length_append, List.length_singleton] at hlt
      rw [List.foldlM_append, ih (by omega) fun m hm ↦ hfit m (List.mem_append_left _ hm), ok_bind,
        List.foldlM_cons, push_concat hle hn hpos (by omega) (hfit m (by simp))]
      simp only [if_neg hlt.ne]
      rfl

/-- A full batch is encoded. -/
theorem foldlM_push (hle : e.maxBlockSize ≤ 65531) (hn : e.numBlocks < 256)
    (hpos : 0 < e.numFecBlocks) (hin : e.inBlocks = []) (hne : msgs ≠ [])
    (hlen : msgs.length = e.numBlocks) (hfit : ∀ m ∈ msgs, m.length + 2 ≤ e.maxBlockSize) :
    msgs.foldlM push e = { e with inBlocks := msgs.mapIdx e.filledBlock }.encodeBlocks := by
  obtain ⟨msgs, m, rfl⟩ := (List.eq_nil_or_concat' msgs).resolve_left hne
  rw [List.length_append, List.length_singleton] at hlen
  rw [List.foldlM_append, foldlM_push_of_lt hle hn hpos hin (by omega)
    fun m hm ↦ hfit m (List.mem_append_left _ hm), ok_bind, List.foldlM_cons,
    push_concat hle hn hpos (by omega) (hfit m (by simp))]
  simp only [if_pos hlen, List.foldlM_nil]
  exact bind_pure _

section Encode

variable (hne : msgs ≠ []) (hn : msgs.length ≤ e.numBlocks) (hle : e.maxBlockSize ≤ 65531)
  (hfit : ∀ m ∈ msgs, m.length + 2 ≤ e.maxBlockSize) (hin : e.inBlocks = msgs.mapIdx e.filledBlock)

include hfit in
theorem longest_le_length_word :
    ∀ x ∈ msgs.map (word e.maxBlockSize), longest msgs + 2 ≤ x.length := by
  intro x hx
  obtain ⟨m, hm, rfl⟩ := List.mem_map.mp hx
  rw [length_word (hfit m hm)]
  obtain ⟨m', hm', hlen⟩ := exists_longest (List.ne_nil_of_mem hm)
  rw [← hlen]
  exact hfit m' hm'

include hne hn hle hfit hin

/-- Too many data blocks. -/
theorem encodeBlocks_many (hlt : msgs.length < 256) (hmany : 128 < msgs.length)
    (hpos : 0 < e.numFecBlocks) (hf : e.numFecBlocks ≤ 256) : e.encodeBlocks = .error .table := by
  obtain ⟨fecBlock, hfecBlock, henc⟩ := encodeBlocks_eq hne hn hlt hle hfit hin
  have hcode := fecEncode_many (longest msgs + 2) (msgs.map (word e.maxBlockSize))
    ((List.range e.numFecBlocks).map fun r ↦ (fecBlock (msgs.length + r)).fecData)
    (by rwa [List.length_map]) (List.ne_nil_of_length_pos (by simpa using hpos)) (by simpa using hf)
    (longest_le_length_word hfit) (by
      intro x hx
      obtain ⟨r, -, rfl⟩ := List.mem_map.mp hx
      exact (hfecBlock _).2.1.ge)
  rw [henc, hcode, error_bind]

/-- The data packets carry the messages, and the FEC packets have the same size.  Beyond the limits
of the code, nothing is said about what is in the FEC packets. -/
theorem encodeBlocks_sends (hdata : msgs.length ≤ 128) (hf : e.numFecBlocks ≤ 256) :
    ∃ (bodies : List (List UInt8)) (sent : List FECBlock), bodies.length = e.numFecBlocks ∧
      (∀ body ∈ bodies, body.length = longest msgs + 2) ∧
      List.Forall₂ FECBlock.SentAs sent
        ((msgs.mapIdx fun i m ↦ e.tag msgs.length i ++ word (longest msgs + 2) m) ++
          bodies.mapIdx fun r body ↦ e.tag msgs.length (msgs.length + r) ++ body) ∧
      e.encodeBlocks = .ok { e with
        seqNum := nextSeqNum e.seqNum
        inBlocks := []
        outBlocks := e.outBlocks ++ sent } := by
  obtain ⟨fecBlock, hfecBlock, henc⟩ := encodeBlocks_eq hne hn (by omega) hle hfit hin
  have hlong : longest msgs + 2 ≤ e.maxBlockSize := by
    obtain ⟨m, hm, hlen⟩ := exists_longest hne
    rw [← hlen]
    exact hfit m hm
  have hfec : ∀ x ∈ (List.range e.numFecBlocks).map fun r ↦ (fecBlock (msgs.length + r)).fecData,
      x.length = longest msgs + 2 := by
    intro x hx
    obtain ⟨r, -, rfl⟩ := List.mem_map.mp hx
    exact (hfecBlock _).2.1
  obtain ⟨coded, hcode, hov⟩ := fecEncode_spec (longest msgs + 2) (msgs.map (word e.maxBlockSize))
    ((List.range e.numFecBlocks).map fun r ↦ (fecBlock (msgs.length + r)).fecData)
    (by simpa using hne) (by simpa using hdata) (by simpa using hf) (longest_le_length_word hfit)
    fun x hx ↦ (hfec x hx).ge
  have hlength : coded.length = e.numFecBlocks := by
    rw [hov.length, List.length_map, List.length_range]
  have hbody : ∀ body ∈ coded, body.length = longest msgs + 2 := by
    intro body hbody
    obtain ⟨r, hr⟩ := List.mem_iff_getElem?.mp hbody
    obtain ⟨x, hx, hrow⟩ := hov.exists_row hr
    rw [hrow.length]
    exact hfec x (List.mem_of_getElem? hx)
  rw [hcode, ok_bind] at henc
  refine ⟨coded, _, hlength, hbody, List.rel_append ?_ ?_, henc⟩
  · refine List.forall₂_iff_get.mpr ⟨by simp, fun i hi hi' ↦ ?_⟩
    simp only [List.get_eq_getElem, List.getElem_mapIdx]
    have hi : i < msgs.length := by simpa using hi
    have hmem : msgs[i] ∈ msgs := List.getElem_mem hi
    exact filledBlock_sentAs (Nat.add_le_add_right (le_longest hmem) 2) hlong (hlong.trans hle) _ i
  · refine List.forall₂_iff_get.mpr ⟨by simp [hlength], fun r hr hr' ↦ ?_⟩
    simp only [List.get_eq_getElem, List.getElem_zipWith, List.getElem_mapIdx, List.getElem_range]
    obtain ⟨hdlen, hflen, htag⟩ := hfecBlock (msgs.length + r)
    have hmem := hbody _ (List.getElem_mem (by simpa using hr'))
    exact write_sentAs _ htag (by rw [hdlen, hmem]) (by rw [hflen, hmem])

end Encode

/-- The packet of a block, be it a data block or an FEC block. -/
theorem exists_body {bodies : List (List UInt8)} {size n : ℕ} {sent : List FECBlock}
    (hbody : ∀ body ∈ bodies, body.length = size) (hfit : ∀ m ∈ msgs, m.length + 2 ≤ size)
    (hsent : List.Forall₂ FECBlock.SentAs sent
      ((msgs.mapIdx fun i m ↦ e.tag n i ++ word size m) ++
        bodies.mapIdx fun r body ↦ e.tag n (msgs.length + r) ++ body))
    {k : ℕ} {b : FECBlock} (hb : sent[k]? = some b) :
    ∃ body, body.length = size ∧ b.SentAs (e.tag n k ++ body) ∧
      ∀ m, msgs[k]? = some m → body = word size m := by
  obtain ⟨hk, rfl⟩ := List.getElem?_eq_some_iff.mp hb
  have hget := (List.forall₂_iff_get.mp hsent).2 k hk (hsent.length_eq ▸ hk)
  simp only [List.get_eq_getElem] at hget
  by_cases hlt : k < msgs.length
  · rw [List.getElem_append_left (by simpa using hlt), List.getElem_mapIdx] at hget
    refine ⟨_, length_word (hfit _ (List.getElem_mem hlt)), hget, fun m hm ↦ ?_⟩
    rw [List.getElem?_eq_getElem hlt, Option.some.injEq] at hm
    rw [hm]
  · rw [List.getElem_append_right (by simpa using hlt), List.getElem_mapIdx] at hget
    simp only [List.length_mapIdx, Nat.add_sub_cancel' (Nat.le_of_not_lt hlt)] at hget
    refine ⟨_, hbody _ (List.getElem_mem _), hget, fun m hm ↦ ?_⟩
    exact absurd (List.getElem?_eq_some_iff.mp hm).1 hlt

end FECEncoder

end WfbBridge
