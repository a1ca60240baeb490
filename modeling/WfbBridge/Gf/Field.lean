import Mathlib
import WfbBridge.Gf.Tables

/-!
# The bytes as a field

`GF(2^8)` as the tables of `fec.c` implement it: addition is the exclusive or,
multiplication is `gf_mul` and the reciprocal is `inverse`.  The field laws are
consequences of two facts about the generator: every nonzero byte is one of its
powers, and multiplying by a power is an iterate of the linear map `xtime`.

`Gf` is a type of its own because `UInt8` already has the arithmetic modulo
`256`; `toGf` reads a byte as a field element.
-/

namespace WfbBridge.Gf

/-! ## Multiplication and powers -/

@[simp] theorem gfMul_zero (x : UInt8) : gfMul x 0 = 0 := by simp [gfMul]

@[simp] theorem zero_gfMul (x : UInt8) : gfMul 0 x = 0 := by simp [gfMul]

theorem gfMul_power (i j : ℕ) : gfMul (power i) (power j) = power (i + j) := by
  have hlog : ∀ i, gfLog (power i) = i % gfSize := fun i ↦ by
    rw [← power_mod i, gfLog_power (Nat.mod_lt _ (by decide))]
  rw [gfMul, if_neg (by simp [power_ne_zero]), gfExp_eq (modnn_lt _), modnn_eq, power_mod,
    hlog, hlog, ← power_mod, ← Nat.add_mod, power_mod]

/-- Multiplication by a power of the generator is an iterate of `xtime`. -/
theorem power_gfMul (i : ℕ) (x : UInt8) : gfMul (power i) x = xtime^[i] x := by
  by_cases hx : x = 0
  · subst hx
    rw [gfMul_zero, Function.iterate_fixed xtime_zero]
  · obtain ⟨j, -, rfl⟩ := exists_power_eq hx
    rw [gfMul_power, power, power, Function.iterate_add_apply]

theorem gfMul_comm (x y : UInt8) : gfMul x y = gfMul y x := by
  simp only [gfMul, or_comm, Nat.add_comm]

theorem gfMul_assoc (x y z : UInt8) : gfMul (gfMul x y) z = gfMul x (gfMul y z) := by
  by_cases hx : x = 0
  · subst hx; simp
  by_cases hy : y = 0
  · subst hy; simp
  obtain ⟨i, -, rfl⟩ := exists_power_eq hx
  obtain ⟨j, -, rfl⟩ := exists_power_eq hy
  rw [gfMul_power, power_gfMul, power_gfMul, power_gfMul, Function.iterate_add_apply]

theorem one_gfMul (x : UInt8) : gfMul 1 x = x := power_gfMul 0 x

theorem iterate_xtime_xor (i : ℕ) (x y : UInt8) :
    xtime^[i] (x ^^^ y) = xtime^[i] x ^^^ xtime^[i] y := by
  induction i generalizing x y with
  | zero => rfl
  | succ i ih => rw [Function.iterate_succ_apply, xtime_xor, ih]; rfl

theorem gfMul_xor (x y z : UInt8) : gfMul x (y ^^^ z) = gfMul x y ^^^ gfMul x z := by
  by_cases hx : x = 0
  · subst hx; simp
  · obtain ⟨i, -, rfl⟩ := exists_power_eq hx
    simp only [power_gfMul, iterate_xtime_xor]

theorem xor_gfMul (x y z : UInt8) : gfMul (x ^^^ y) z = gfMul x z ^^^ gfMul y z := by
  rw [gfMul_comm, gfMul_xor, gfMul_comm z x, gfMul_comm z y]

theorem gfMul_inverse {x : UInt8} (hx : x ≠ 0) : gfMul x (inverse x) = 1 := by
  have hlt := gfLog_lt hx
  have hsum : gfLog x + (gfSize - gfLog x) = gfSize := by omega
  calc gfMul x (inverse x)
      = gfMul (power (gfLog x)) (power (gfSize - gfLog x)) := by rw [power_gfLog hx, inverse_eq hx]
    _ = power gfSize := by rw [gfMul_power, hsum]
    _ = 1 := by rw [← power_mod, Nat.mod_self, power_zero]

end WfbBridge.Gf

/-! ## The field -/

namespace WfbBridge

/-- A byte, as an element of the field the tables implement. -/
def Gf : Type := UInt8

namespace Gf

instance : DecidableEq Gf := inferInstanceAs (DecidableEq UInt8)

/-- The field element a byte stands for. -/
def toGf (x : UInt8) : Gf := x

/-- A field element as a byte. -/
def ofGf (x : Gf) : UInt8 := x

theorem toGf_injective : Function.Injective toGf := fun _ _ h ↦ h

instance : Add Gf := ⟨fun x y ↦ HXor.hXor (α := UInt8) (β := UInt8) x y⟩
instance : Zero Gf := ⟨toGf 0⟩
instance : Neg Gf := ⟨fun x ↦ x⟩
instance : Mul Gf := ⟨gfMul⟩
instance : One Gf := ⟨toGf 1⟩
instance : Inv Gf := ⟨inverse⟩

instance : Field Gf where
  add_assoc := UInt8.xor_assoc
  zero_add x := UInt8.zero_xor
  add_zero x := UInt8.xor_zero
  add_comm := UInt8.xor_comm
  neg_add_cancel x := UInt8.xor_self
  mul_assoc := gfMul_assoc
  mul_comm := gfMul_comm
  one_mul := one_gfMul
  mul_one x := (gfMul_comm x 1).trans (one_gfMul x)
  zero_mul := zero_gfMul
  mul_zero := gfMul_zero
  left_distrib := gfMul_xor
  right_distrib := xor_gfMul
  exists_pair_ne := ⟨toGf 0, toGf 1, fun h ↦ absurd (toGf_injective h) (by decide)⟩
  mul_inv_cancel _ hx := gfMul_inverse hx
  inv_zero := inverse_zero
  nsmul := nsmulRec
  zsmul := zsmulRec
  nnqsmul := _
  qsmul := _

@[simp] theorem toGf_ofGf (x : Gf) : toGf (ofGf x) = x := rfl

@[simp] theorem toGf_zero : toGf 0 = 0 := rfl

@[simp] theorem toGf_one : toGf 1 = 1 := rfl

@[simp] theorem toGf_xor (x y : UInt8) : toGf (x ^^^ y) = toGf x + toGf y := rfl

@[simp] theorem toGf_gfMul (x y : UInt8) : toGf (gfMul x y) = toGf x * toGf y := rfl

@[simp] theorem toGf_inverse (x : UInt8) : toGf (inverse x) = (toGf x)⁻¹ := rfl

@[simp] theorem toGf_inj {x y : UInt8} : toGf x = toGf y ↔ x = y := toGf_injective.eq_iff

@[simp] theorem toGf_eq_zero {x : UInt8} : toGf x = 0 ↔ x = 0 := toGf_inj (y := 0)

/-- Every element is its own opposite, which is why `addmul` also subtracts. -/
theorem add_self (x : Gf) : x + x = 0 := neg_add_cancel x

end Gf

end WfbBridge
