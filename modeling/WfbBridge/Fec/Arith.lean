import Mathlib
import WfbBridge.Gf.Field
import WfbBridge.Library.Loop

/-!
# Vector operations of `fec.c`

`mul` and `addmul` on byte buffers.  A pointer into a block is the list of bytes
from there to the end of the allocation, so an access past the end of the list
is an access outside the block, and the model stops with a `Fault` there.

`slow_mul1` and `slow_addmul1` handle sixteen bytes a turn and then the rest; the
indices they visit are `unrolled sz`, which is `0, …, sz - 1` in order.
-/

namespace WfbBridge

/-- The accesses that can leave their buffer. -/
inductive Fault where
  /-- a block shorter than its header -/
  | header
  /-- an index of a vector or an array of pointers -/
  | index
  /-- an index of the table `inverse` -/
  | table
  /-- bytes of a block or of a packet buffer -/
  | bytes
deriving DecidableEq, Repr

namespace Fec

open Gf Checked

/-- `UNROLL`. -/
def unroll : ℕ := 16

/-- The indices the unrolled loops visit: whole groups first, then the rest. -/
def unrolled (sz : ℕ) : List ℕ :=
  (List.range (sz / unroll)).flatMap (fun b ↦ List.range' (unroll * b) unroll) ++
    List.range' (unroll * (sz / unroll)) (sz % unroll)

theorem flatMap_range'_unroll (q : ℕ) :
    (List.range q).flatMap (fun b ↦ List.range' (unroll * b) unroll) =
      List.range' 0 (unroll * q) := by
  induction q with
  | zero => rfl
  | succ q ih =>
      rw [List.range_succ, List.flatMap_append, ih, List.flatMap_singleton, Nat.mul_succ]
      have h := List.range'_append_1 (s := 0) (m := unroll * q) (n := unroll)
      rwa [Nat.zero_add] at h

theorem unrolled_eq_range (sz : ℕ) : unrolled sz = List.range sz := by
  have h := List.range'_append_1 (s := 0) (m := unroll * (sz / unroll)) (n := sz % unroll)
  rw [Nat.zero_add] at h
  rw [unrolled, flatMap_range'_unroll, h, Nat.div_add_mod, List.range_eq_range']

/-- `slow_addmul1`: `dst[i] ^= c * src[i]`. -/
def slowAddmul1 (dst src : List UInt8) (c : UInt8) (sz : ℕ) : Except Fault (List UInt8) :=
  (unrolled sz).foldlM (fun dst i ↦ do
    let d ← readAt .bytes dst i
    let s ← readAt .bytes src i
    .ok (dst.set i (d ^^^ gfMul c s))) dst

/-- `slow_mul1`: `dst[i] = c * src[i]`. -/
def slowMul1 (dst src : List UInt8) (c : UInt8) (sz : ℕ) : Except Fault (List UInt8) :=
  (unrolled sz).foldlM (fun dst i ↦ do
    let _ ← readAt .bytes dst i
    let s ← readAt .bytes src i
    .ok (dst.set i (gfMul c s))) dst

/-- `memset(dst, 0, sz)`. -/
def memset (dst : List UInt8) (sz : ℕ) : Except Fault (List UInt8) :=
  if sz ≤ dst.length then .ok (List.replicate sz 0 ++ dst.drop sz) else .error .bytes

/-- `addmul`. -/
def addmul (dst src : List UInt8) (c : UInt8) (sz : ℕ) : Except Fault (List UInt8) :=
  if c ≠ 0 then slowAddmul1 dst src c sz else .ok dst

/-- `mul`. -/
def mul (dst src : List UInt8) (c : UInt8) (sz : ℕ) : Except Fault (List UInt8) :=
  if c ≠ 0 then slowMul1 dst src c sz else memset dst sz

/-- `inverse[i]`, with the bound of the table. -/
def inverseAt (i : ℕ) : Except Fault UInt8 :=
  if i ≤ gfSize then .ok (inverse (UInt8.ofNat i)) else .error .table

theorem inverseAt_of_lt {i : ℕ} (h : i < 256) : inverseAt i = .ok (inverse (UInt8.ofNat i)) :=
  if_pos (by simpa [gfSize, gfBits] using Nat.le_of_lt_succ h)

/-! ## Bytes as field elements -/

/-- Byte `p` of a buffer, as a field element. -/
def byteAt (l : List UInt8) (p : ℕ) : Gf := toGf (l.getD p 0)

theorem byteAt_of_getElem? {l : List UInt8} {p : ℕ} {x : UInt8} (h : l[p]? = some x) :
    byteAt l p = toGf x := by
  rw [byteAt, List.getD_eq_getElem?_getD, h, Option.getD_some]

theorem byteAt_set_self {l : List UInt8} {p : ℕ} {x : UInt8} (h : p < l.length) :
    byteAt (l.set p x) p = toGf x :=
  byteAt_of_getElem? (List.getElem?_set_self h)

theorem byteAt_set_ne {l : List UInt8} {p q : ℕ} {x : UInt8} (h : p ≠ q) :
    byteAt (l.set p x) q = byteAt l q := by
  simp only [byteAt, List.getD_eq_getElem?_getD, List.getElem?_set_ne h]

/-- Buffers of one length with the same field elements are equal. -/
theorem ext_byteAt {l l' : List UInt8} (hlen : l.length = l'.length)
    (h : ∀ p < l.length, byteAt l p = byteAt l' p) : l = l' := by
  refine List.ext_getElem hlen fun p hp hp' ↦ ?_
  have hx := h p hp
  rw [byteAt_of_getElem? (List.getElem?_eq_getElem hp),
    byteAt_of_getElem? (List.getElem?_eq_getElem hp')] at hx
  exact toGf_injective hx

/-- What an operation on the first `sz` bytes of `dst` may leave: a buffer of the
same length, with `f p` at each of those bytes and the rest untouched. -/
structure Overwrites (dst : List UInt8) (sz : ℕ) (f : ℕ → Gf) (r : List UInt8) : Prop where
  length : r.length = dst.length
  at_lt : ∀ p < sz, byteAt r p = f p
  at_ge : ∀ p, sz ≤ p → byteAt r p = byteAt dst p

theorem Overwrites.congr {dst : List UInt8} {sz : ℕ} {f g : ℕ → Gf} {r : List UInt8}
    (h : Overwrites dst sz f r) (hfg : ∀ p < sz, f p = g p) : Overwrites dst sz g r :=
  ⟨h.length, fun p hp ↦ (h.at_lt p hp).trans (hfg p hp), h.at_ge⟩

/-- An operation on the result of another one, on the same bytes. -/
theorem Overwrites.trans {dst r r' : List UInt8} {sz : ℕ} {f g : ℕ → Gf}
    (h : Overwrites dst sz f r) (h' : Overwrites r sz g r') : Overwrites dst sz g r' :=
  ⟨h'.length.trans h.length, h'.at_lt, fun p hp ↦ (h'.at_ge p hp).trans (h.at_ge p hp)⟩

/-- The common shape of the two loops: one write per index, read from `src`. -/
theorem foldlM_overwrites {dst src : List UInt8} {sz : ℕ} {g : UInt8 → UInt8 → UInt8}
    (hdst : sz ≤ dst.length) (hsrc : sz ≤ src.length) :
    ∃ r, (unrolled sz).foldlM (fun dst i ↦ do
        let d ← readAt Fault.bytes dst i
        let s ← readAt Fault.bytes src i
        .ok (dst.set i (g d s))) dst = .ok r ∧
      Overwrites dst sz (fun p ↦ toGf (g (dst.getD p 0) (src.getD p 0))) r := by
  rw [unrolled_eq_range]
  refine Loop.foldlM_range_inv
    (fun i r ↦ Overwrites dst i (fun p ↦ toGf (g (dst.getD p 0) (src.getD p 0))) r)
    ⟨rfl, fun p hp ↦ absurd hp (by omega), fun _ _ ↦ rfl⟩ ?_
  intro i t hi h
  have hit : i < t.length := by rw [h.length]; omega
  have his : i < src.length := by omega
  have hd : t[i] = dst.getD i 0 := by
    have := h.at_ge i le_rfl
    rw [byteAt_of_getElem? (List.getElem?_eq_getElem hit)] at this
    exact toGf_injective this
  have hs : src[i] = src.getD i 0 := by
    rw [List.getD_eq_getElem?_getD, List.getElem?_eq_getElem his, Option.getD_some]
  refine ⟨t.set i (g t[i] src[i]), ?_, ?_, ?_, ?_⟩
  · rw [readAt_of_lt _ hit, readAt_of_lt _ his, ok_bind, ok_bind]
  · rw [List.length_set, h.length]
  · intro p hp
    by_cases hpi : p = i
    · subst hpi
      rw [byteAt_set_self hit, hd, hs]
    · rw [byteAt_set_ne (Ne.symm hpi)]
      exact h.at_lt p (by omega)
  · intro p hp
    rw [byteAt_set_ne (by omega)]
    exact h.at_ge p (by omega)

/-- `addmul` within the two buffers adds `c * src`. -/
theorem addmul_spec {dst src : List UInt8} {c : UInt8} {sz : ℕ} (hdst : sz ≤ dst.length)
    (hsrc : sz ≤ src.length) : ∃ r, addmul dst src c sz = .ok r ∧
      Overwrites dst sz (fun p ↦ byteAt dst p + toGf c * byteAt src p) r := by
  by_cases hc : c = 0
  · subst hc
    exact ⟨dst, by simp [addmul], rfl, fun p _ ↦ by simp, fun _ _ ↦ rfl⟩
  · obtain ⟨r, hr, h⟩ := foldlM_overwrites (g := fun d s ↦ d ^^^ gfMul c s) hdst hsrc
    exact ⟨r, (if_pos hc).trans hr, h⟩

/-- `mul` within the two buffers stores `c * src`. -/
theorem mul_spec {dst src : List UInt8} {c : UInt8} {sz : ℕ} (hdst : sz ≤ dst.length)
    (hsrc : sz ≤ src.length) : ∃ r, mul dst src c sz = .ok r ∧
      Overwrites dst sz (fun p ↦ toGf c * byteAt src p) r := by
  by_cases hc : c = 0
  · subst hc
    refine ⟨List.replicate sz 0 ++ dst.drop sz, by simp [mul, memset, hdst], ?_, ?_, ?_⟩
    · simp only [List.length_append, List.length_replicate, List.length_drop]
      omega
    · intro p hp
      rw [toGf_zero, zero_mul, byteAt, List.getD_append _ _ _ _ (by simpa using hp)]
      simp [hp]
    · intro p hp
      rw [byteAt, List.getD_append_right _ _ _ _ (by simpa using hp), byteAt]
      simp only [List.getD_eq_getElem?_getD, List.length_replicate, List.getElem?_drop]
      rw [Nat.add_sub_cancel' hp]
  · obtain ⟨r, hr, h⟩ := foldlM_overwrites (g := fun _ s ↦ gfMul c s) hdst hsrc
    exact ⟨r, (if_pos hc).trans hr, h⟩

/-! ## Lengths -/

theorem length_of_foldlM_set {dst src r : List UInt8} {l : List ℕ} {g : UInt8 → UInt8 → UInt8}
    (h : l.foldlM (fun dst i ↦ do
        let d ← readAt Fault.bytes dst i
        let s ← readAt Fault.bytes src i
        .ok (dst.set i (g d s))) dst = .ok r) : r.length = dst.length := by
  refine foldlM_inv (P := fun t ↦ t.length = dst.length) ?_ l rfl h
  intro t i t' ht hstep
  obtain ⟨d, -, hstep⟩ := bind_eq_ok.mp hstep
  obtain ⟨s, -, hstep⟩ := bind_eq_ok.mp hstep
  rw [← Except.ok.inj hstep, List.length_set, ht]

theorem length_addmul {dst src r : List UInt8} {c : UInt8} {sz : ℕ}
    (h : addmul dst src c sz = .ok r) : r.length = dst.length := by
  by_cases hc : c = 0
  · rw [addmul, if_neg (by simpa using hc)] at h
    rw [← Except.ok.inj h]
  · rw [addmul, if_pos hc] at h
    exact length_of_foldlM_set h

theorem length_mul {dst src r : List UInt8} {c : UInt8} {sz : ℕ}
    (h : mul dst src c sz = .ok r) : r.length = dst.length := by
  by_cases hc : c = 0
  · rw [mul, if_neg (by simpa using hc), memset] at h
    split at h
    case isTrue hle =>
      rw [← Except.ok.inj h, List.length_append, List.length_replicate, List.length_drop]
      omega
    case isFalse => exact absurd h (by simp)
  · rw [mul, if_pos hc] at h
    exact length_of_foldlM_set h

end Fec

end WfbBridge
