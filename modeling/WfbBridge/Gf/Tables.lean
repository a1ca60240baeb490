import Mathlib
import WfbBridge.Library.Loop

/-!
# The lookup tables of `fec.c`

`fec_init` fills four static arrays: `gf_exp`, `gf_log` and `inverse` in
`generate_gf`, and `gf_mul_table` in `init_mul_table`.  The arrays are modelled
as functions of their index, a write being `Function.update`, and the loops are
folds over the indices the code visits, in the same order.

The closed forms at the end are what the rest of the development uses: the
`i`-th entry of `gf_exp` is the `i`-th power of the generator (`gfExp_eq`), and
`gf_log` reads the exponent back (`gfLog_power`).  Both are loop invariants;
nothing here evaluates a whole table.
-/

namespace WfbBridge.Gf

/-- `GF_BITS`. -/
def gfBits : ℕ := 8

/-- `GF_SIZE`, the number of powers of the generator. -/
def gfSize : ℕ := 2 ^ gfBits - 1

/-- `allPp[GF_BITS]`: the coefficients of `1 + x^2 + x^3 + x^4 + x^8`. -/
def allPp : List Char := ['1', '0', '1', '1', '1', '0', '0', '0', '1']

/-- The arrays `generate_gf` writes.  Static storage, so all entries start as `0`. -/
structure Tables where
  gfExp : ℕ → UInt8 := fun _ ↦ 0
  gfLog : ℕ → ℕ := fun _ ↦ 0
  inverse : ℕ → UInt8 := fun _ ↦ 0

namespace Tables

/-- One turn of the first loop of `generate_gf`; `mask` is `1 << i`. -/
def firstPowers (t : Tables) (i : ℕ) : Tables :=
  let mask : UInt8 := 1 <<< UInt8.ofNat i
  let e := Function.update t.gfExp i mask
  let l := Function.update t.gfLog (e i).toNat i
  -- the coefficient of `x^i` contributes to `x^GF_BITS`
  let e := if allPp[i]? = some '1' then Function.update e gfBits (e gfBits ^^^ mask) else e
  { t with gfExp := e, gfLog := l }

/-- One turn of the second loop of `generate_gf`. -/
def nextPower (t : Tables) (i : ℕ) : Tables :=
  let mask : UInt8 := 1 <<< UInt8.ofNat (gfBits - 1)
  let v := if mask ≤ t.gfExp (i - 1)
    then t.gfExp gfBits ^^^ ((t.gfExp (i - 1) ^^^ mask) <<< 1)
    else t.gfExp (i - 1) <<< 1
  let e := Function.update t.gfExp i v
  { t with gfExp := e, gfLog := Function.update t.gfLog (e i).toNat i }

/-- One turn of the loop that extends `gf_exp` to twice its size. -/
def extendExp (t : Tables) (i : ℕ) : Tables :=
  { t with gfExp := Function.update t.gfExp (i + gfSize) (t.gfExp i) }

/-- One turn of the loop over `inverse`. -/
def invertOne (t : Tables) (i : ℕ) : Tables :=
  { t with inverse := Function.update t.inverse i (t.gfExp (gfSize - t.gfLog i)) }

end Tables

open Tables in
/-- `generate_gf`. -/
def generateGf : Tables :=
  let t := (List.range gfBits).foldl firstPowers {}
  let t := { t with gfLog := Function.update t.gfLog (t.gfExp gfBits).toNat gfBits }
  let t := (List.range' (gfBits + 1) (gfSize - (gfBits + 1))).foldl nextPower t
  let t := { t with gfLog := Function.update t.gfLog 0 gfSize }
  let t := (List.range gfSize).foldl extendExp t
  let t := { t with inverse := Function.update (Function.update t.inverse 0 0) 1 1 }
  (List.range' 2 (gfSize - 1)).foldl invertOne t

/-- `gf_exp`. -/
def gfExp (i : ℕ) : UInt8 := generateGf.gfExp i

/-- `gf_log`. -/
def gfLog (x : UInt8) : ℕ := generateGf.gfLog x.toNat

/-- `inverse`, at an index inside the table. -/
def inverse (x : UInt8) : UInt8 := generateGf.inverse x.toNat

/-- The loop of `modnn`.  Each turn makes `x` smaller, so `x` turns are enough. -/
def modnnLoop : ℕ → ℕ → ℕ
  | 0, x => x
  | fuel + 1, x =>
      if gfSize ≤ x then
        let x := x - gfSize
        modnnLoop fuel ((x >>> gfBits) + (x &&& gfSize))
      else x

/-- `modnn`: `x % GF_SIZE` without a division. -/
def modnn (x : ℕ) : ℕ := modnnLoop x x

/-- `gf_mul(x, y)`, that is the entry `(x << 8) + y` of `gf_mul_table`:
`init_mul_table` first writes the sum of the logarithms everywhere and then
overwrites the row and the column of `0`. -/
def gfMul (x y : UInt8) : UInt8 :=
  if x = 0 ∨ y = 0 then 0 else gfExp (modnn (gfLog x + gfLog y))

/-! ## The generator -/

/-- Multiplication by the generator: shift, and reduce by the polynomial when a
bit falls out. -/
def xtime (a : UInt8) : UInt8 := (a <<< 1) ^^^ (if 0x80 ≤ a then 0x1d else 0)

theorem le_iff_msb (a : UInt8) : 0x80 ≤ a ↔ a.toBitVec.msb = true := by
  rw [UInt8.le_iff_toBitVec_le, BitVec.msb_eq_decide, decide_eq_true_iff, BitVec.le_def]
  rfl

theorem xtime_xor (a b : UInt8) : xtime (a ^^^ b) = xtime a ^^^ xtime b := by
  have hmsb : (0x80 ≤ a ^^^ b) ↔ ¬ ((0x80 ≤ a) ↔ (0x80 ≤ b)) := by
    rw [le_iff_msb, le_iff_msb, le_iff_msb, UInt8.toBitVec_xor, BitVec.msb_xor]
    cases a.toBitVec.msb <;> cases b.toBitVec.msb <;> simp
  have hswap : ∀ x y z w : UInt8, x ^^^ y ^^^ (z ^^^ w) = x ^^^ z ^^^ (y ^^^ w) := by
    intro x y z w
    rw [UInt8.xor_assoc, ← UInt8.xor_assoc y, UInt8.xor_comm y z, UInt8.xor_assoc z,
      ← UInt8.xor_assoc]
  rw [xtime, xtime, xtime, hswap, UInt8.shiftLeft_xor]
  congr 1
  by_cases ha : 0x80 ≤ a <;> by_cases hb : 0x80 ≤ b <;> simp [hmsb, ha, hb]

@[simp] theorem xtime_zero : xtime 0 = 0 := by decide

theorem xtime_injective : Function.Injective xtime := by
  have h0 : ∀ a : UInt8, xtime a = 0 → a = 0 := by decide +kernel
  intro a b hab
  have : xtime (a ^^^ b) = 0 := by rw [xtime_xor, hab, UInt8.xor_self]
  exact UInt8.xor_eq_zero_iff.mp (h0 _ this)

/-- The `i`-th power of the generator. -/
def power (i : ℕ) : UInt8 := xtime^[i] 1

@[simp] theorem power_zero : power 0 = 1 := rfl

theorem power_succ (i : ℕ) : power (i + 1) = xtime (power i) :=
  Function.iterate_succ_apply' xtime i 1

theorem power_ne_zero (i : ℕ) : power i ≠ 0 := by
  induction i with
  | zero => decide
  | succ i ih =>
      intro h
      rw [power_succ] at h
      exact ih (xtime_injective (h.trans xtime_zero.symm))

/-- The generator has order `GF_SIZE`: it has that period, and none of the
maximal proper divisors of `255 = 3 * 5 * 17` is one. -/
theorem minimalPeriod_xtime : Function.minimalPeriod xtime 1 = gfSize := by
  have hper : Function.IsPeriodicPt xtime gfSize 1 := by
    unfold Function.IsPeriodicPt Function.IsFixedPt gfSize gfBits
    decide +kernel
  have hnot : ∀ d ∈ [15, 51, 85], ¬ Function.IsPeriodicPt xtime d 1 := by
    unfold Function.IsPeriodicPt Function.IsFixedPt
    decide +kernel
  have hdvd : Function.minimalPeriod xtime 1 ∣ gfSize := hper.minimalPeriod_dvd
  have hself := Function.isPeriodicPt_minimalPeriod xtime 1
  generalize Function.minimalPeriod xtime 1 = p at hdvd hself
  by_contra hne
  have hp : p ∈ Nat.divisors 255 := Nat.mem_divisors.mpr ⟨hdvd, by decide⟩
  have hcase : ∀ q ∈ Nat.divisors 255, q = 255 ∨ ∃ d ∈ [15, 51, 85], q ∣ d := by decide +kernel
  rcases hcase p hp with rfl | ⟨d, hd, hpd⟩
  · exact hne rfl
  · exact hnot d hd (hself.trans_dvd hpd)

theorem power_injOn {i j : ℕ} (hi : i < gfSize) (hj : j < gfSize) (h : power i = power j) :
    i = j :=
  Function.iterate_injOn_Iio_minimalPeriod (f := xtime) (x := 1)
    (by simpa [minimalPeriod_xtime] using hi) (by simpa [minimalPeriod_xtime] using hj) h

theorem power_mod (i : ℕ) : power (i % gfSize) = power i := by
  have h := Function.iterate_mod_minimalPeriod_eq (f := xtime) (x := 1) (n := i)
  rwa [minimalPeriod_xtime] at h

/-- Every nonzero byte is a power: the powers are `255` different nonzero bytes. -/
theorem exists_power_eq {x : UInt8} (hx : x ≠ 0) : ∃ i < gfSize, power i = x := by
  have hsub : (Finset.range gfSize).image power ⊆ Finset.univ.erase 0 := by
    intro y hy
    obtain ⟨i, -, rfl⟩ := Finset.mem_image.mp hy
    exact Finset.mem_erase.mpr ⟨power_ne_zero i, Finset.mem_univ _⟩
  have hcard : (Finset.univ.erase (0 : UInt8)).card ≤ ((Finset.range gfSize).image power).card := by
    rw [Finset.card_image_of_injOn, Finset.card_range, Finset.card_erase_of_mem (Finset.mem_univ _)]
    · decide +kernel
    · intro i hi j hj h
      exact power_injOn (by simpa using hi) (by simpa using hj) h
  have hmem : x ∈ (Finset.range gfSize).image power := by
    rw [Finset.eq_of_subset_of_card_le hsub hcard]
    exact Finset.mem_erase.mpr ⟨hx, Finset.mem_univ _⟩
  obtain ⟨i, hi, h⟩ := Finset.mem_image.mp hmem
  exact ⟨i, Finset.mem_range.mp hi, h⟩

/-! ## What the loops compute -/

namespace Tables

/-- The first `n` powers are in `gf_exp`, and `gf_log` leads back from them. -/
structure PowersTo (n : ℕ) (t : Tables) : Prop where
  exp : ∀ j < n, t.gfExp j = power j
  log : ∀ j < n, t.gfLog (power j).toNat = j

/-- The tables when the first loop has ended and `gf_log` of `x^GF_BITS` is written. -/
theorem powersTo_firstPowers {t : Tables} (ht : t = (List.range gfBits).foldl firstPowers {}) :
    PowersTo (gfBits + 1)
      { t with gfLog := Function.update t.gfLog (t.gfExp gfBits).toNat gfBits } := by
  subst ht
  constructor <;> decide +kernel

/-- The branch on the top bit in the second loop is multiplication by the generator. -/
theorem nextPower_value (p : UInt8) :
    (if 0x80 ≤ p then (0x1d : UInt8) ^^^ ((p ^^^ 0x80) <<< 1) else p <<< 1) = xtime p := by
  revert p
  decide +kernel

theorem PowersTo.nextPower {t : Tables} {i : ℕ} (h : PowersTo i t) (h8 : gfBits < i)
    (hi : i < gfSize) : PowersTo (i + 1) (t.nextPower i) := by
  have hprev : t.gfExp (i - 1) = power (i - 1) := h.exp _ (by omega)
  have hbits : t.gfExp gfBits = 0x1d := (h.exp _ h8).trans (by decide +kernel)
  have hexp : (t.nextPower i).gfExp = Function.update t.gfExp i (power i) := by
    have hi' : i = i - 1 + 1 := by omega
    have hmask : (1 : UInt8) <<< UInt8.ofNat (gfBits - 1) = 0x80 := by decide
    simp only [Tables.nextPower, hprev, hbits, hmask]
    rw [nextPower_value, ← power_succ, ← hi']
  have hlog : (t.nextPower i).gfLog = Function.update t.gfLog (power i).toNat i := by
    change Function.update t.gfLog ((t.nextPower i).gfExp i).toNat i = _
    rw [hexp, Function.update_self]
  constructor
  · intro j hj
    rw [hexp]
    by_cases hji : j = i
    · subst hji; exact Function.update_self ..
    · rw [Function.update_of_ne hji]
      exact h.exp j (by omega)
  · intro j hj
    rw [hlog]
    by_cases hji : j = i
    · subst hji; exact Function.update_self ..
    · have hne : (power j).toNat ≠ (power i).toNat := fun hc ↦
        hji (power_injOn (by omega) hi (UInt8.toNat_inj.mp hc))
      rw [Function.update_of_ne hne]
      exact h.log j (by omega)

theorem PowersTo.setLogZero {t : Tables} {n v : ℕ} (h : PowersTo n t) :
    PowersTo n { t with gfLog := Function.update t.gfLog 0 v } := by
  refine ⟨h.exp, fun j hj ↦ ?_⟩
  have hne : (power j).toNat ≠ 0 := fun hc ↦ power_ne_zero j (UInt8.toNat_inj.mp hc)
  exact (Function.update_of_ne hne _ _).trans (h.log j hj)

theorem PowersTo.extendExp {t : Tables} {i : ℕ} (h : PowersTo gfSize t) :
    PowersTo gfSize (t.extendExp i) :=
  ⟨fun j hj ↦ (Function.update_of_ne (by omega) _ _).trans (h.exp j hj), h.log⟩

/-- Entry `i` of `inverse` is the power that complements the logarithm of `i`. -/
structure InversesTo (n : ℕ) (t : Tables) : Prop where
  powers : PowersTo gfSize t
  zero : t.inverse 0 = 0
  one : t.inverse 1 = 1
  inverse : ∀ i < n, 2 ≤ i → t.inverse i = t.gfExp (gfSize - t.gfLog i)

theorem PowersTo.inversesTo {t : Tables} (h : PowersTo gfSize t) : InversesTo 2
    { t with inverse := Function.update (Function.update t.inverse 0 0) 1 1 } where
  powers := ⟨h.exp, h.log⟩
  zero := by simp
  one := by simp
  inverse := fun i hi hi2 ↦ absurd hi (by omega)

theorem InversesTo.invertOne {t : Tables} {i : ℕ} (h : InversesTo i t) (hi : 2 ≤ i) :
    InversesTo (i + 1) (t.invertOne i) where
  powers := ⟨h.powers.exp, h.powers.log⟩
  zero := (Function.update_of_ne (by omega) _ _).trans h.zero
  one := (Function.update_of_ne (by omega) _ _).trans h.one
  inverse := by
    intro j hj hj2
    by_cases hji : j = i
    · subst hji; exact Function.update_self ..
    · exact (Function.update_of_ne hji _ _).trans (h.inverse j (by omega) hj2)

end Tables

open Tables in
/-- The invariants of the five loops, one after the other. -/
theorem generateGf_spec : InversesTo (gfSize + 1) generateGf := by
  have h₁ := powersTo_firstPowers rfl
  have h₂ := Loop.foldl_range'_inv (n := gfSize - (gfBits + 1)) (f := nextPower) PowersTo h₁
    fun i t hi hlt h ↦ h.nextPower (by omega)
      (by simp only [gfSize, gfBits] at hi hlt ⊢; omega)
  have hsize : gfBits + 1 + (gfSize - (gfBits + 1)) = gfSize := by decide
  have h₃ := PowersTo.setLogZero (v := gfSize) (hsize ▸ h₂)
  have h₄ := Loop.foldl_range_inv (n := gfSize) (f := extendExp) (fun _ ↦ PowersTo gfSize) h₃
    fun i t _ h ↦ h.extendExp
  have h₅ := Loop.foldl_range'_inv (n := gfSize - 1) (f := invertOne) InversesTo h₄.inversesTo
    fun i t hi _ h ↦ h.invertOne hi
  have hlast : gfSize + 1 = 2 + (gfSize - 1) := by decide
  rw [hlast]
  exact h₅

theorem gfExp_eq {i : ℕ} (hi : i < gfSize) : gfExp i = power i := generateGf_spec.powers.exp i hi

theorem gfLog_power {i : ℕ} (hi : i < gfSize) : gfLog (power i) = i :=
  generateGf_spec.powers.log i hi

theorem power_gfLog {x : UInt8} (hx : x ≠ 0) : power (gfLog x) = x := by
  obtain ⟨i, hi, rfl⟩ := exists_power_eq hx
  rw [gfLog_power hi]

theorem gfLog_lt {x : UInt8} (hx : x ≠ 0) : gfLog x < gfSize := by
  obtain ⟨i, hi, rfl⟩ := exists_power_eq hx
  rwa [gfLog_power hi]

@[simp] theorem inverse_zero : inverse 0 = 0 := generateGf_spec.zero

/-- The table of inverses, in terms of logarithms. -/
theorem inverse_eq {x : UInt8} (hx : x ≠ 0) : inverse x = power (gfSize - gfLog x) := by
  have hlt := gfLog_lt hx
  by_cases h1 : x = 1
  · subst h1
    have hlog : gfLog 1 = 0 := gfLog_power (i := 0) (by decide)
    have hone : inverse 1 = 1 := generateGf_spec.one
    rw [hlog, hone, Nat.sub_zero, ← power_mod gfSize, Nat.mod_self, power_zero]
  · have hx2 : 2 ≤ x.toNat := by
      have h0' : x.toNat ≠ 0 := fun h ↦ hx (UInt8.toNat_inj.mp h)
      have h1' : x.toNat ≠ 1 := fun h ↦ h1 (UInt8.toNat_inj.mp h)
      omega
    have hpos : gfLog x ≠ 0 := by
      intro h0
      apply h1
      rw [← power_gfLog hx, h0, power_zero]
    have hinv := generateGf_spec.inverse x.toNat (by simpa [gfSize, gfBits] using x.toNat_lt) hx2
    exact hinv.trans (generateGf_spec.powers.exp _
      (Nat.sub_lt (by decide) (Nat.pos_of_ne_zero hpos)))

theorem modnnLoop_eq (fuel x : ℕ) (h : x ≤ fuel) : modnnLoop fuel x = x % gfSize := by
  induction fuel generalizing x with
  | zero => obtain rfl : x = 0 := by omega
            rfl
  | succ fuel ih =>
      rw [modnnLoop]
      split
      case isFalse hlt => rw [Nat.mod_eq_of_lt (by omega)]
      case isTrue hle =>
        -- `256 = 1` modulo `255`, so the high and the low byte may be added
        have hshift : (x - gfSize) >>> gfBits = (x - gfSize) / 256 := Nat.shiftRight_eq_div_pow _ 8
        have hand : (x - gfSize) &&& gfSize = (x - gfSize) % 256 :=
          Nat.and_two_pow_sub_one_eq_mod _ 8
        simp only
        rw [hshift, hand]
        have hg : gfSize = 255 := rfl
        rw [ih _ (by omega), hg]
        omega

theorem modnn_eq (x : ℕ) : modnn x = x % gfSize := modnnLoop_eq x x le_rfl

theorem modnn_lt (x : ℕ) : modnn x < gfSize := by
  rw [modnn_eq]
  exact Nat.mod_lt _ (by decide)

end WfbBridge.Gf
