import PipeANN.FieldCodec
import Mathlib.Data.EReal.Operations

/-! # The order of encoded floats

`encode_float_ordered` of `field_codec.h` makes a `float` into a word that is compared without a
sign.  The bits are read as a number by their three fields (`floatValue`); without the sign
they count the numbers from `0` up to infinity.  `encodeFloatOrdered_lt_iff` says that the
codes have the order of the numbers for all pairs but one, `-0` and `0`.
-/
namespace PipeANN.FloatOrder
open Dsl

variable (u : UInt32)

/-- The sign is set. -/
def Negative : Prop := 2 ^ 31 ≤ u.toNat

def exponent : Nat := u.toNat / 2 ^ 23 % 2 ^ 8

def mantissa : Nat := u.toNat % 2 ^ 23

def IsNaN : Prop := exponent u = 255 ∧ mantissa u ≠ 0

/-- The absolute value of a finite number.  The subnormal ones have no leading bit. -/
noncomputable def magnitude (e m : Nat) : ℝ :=
  if e = 0 then m / 2 ^ 23 * 2 ^ (-126 : ℤ) else (1 + m / 2 ^ 23) * 2 ^ ((e : ℤ) - 127)

/-- The absolute value of the number with this exponent and mantissa, or infinity. -/
noncomputable def floatAbs (e m : Nat) : EReal := if e = 255 then ⊤ else magnitude e m

open Classical in
/-- The number that the bits stand for. -/
noncomputable def floatValue : EReal :=
  if Negative u then -floatAbs (exponent u) (mantissa u) else floatAbs (exponent u) (mantissa u)

/-- Without the sign, the bits count the finite numbers in their order. -/
theorem strictMono_magnitude : StrictMono fun n : Nat => magnitude (n / 2 ^ 23) (n % 2 ^ 23) := by
  refine strictMono_nat_of_lt_succ fun n => ?_
  have hdiv : ((n + 1) / 2 ^ 23 = n / 2 ^ 23 ∧ (n + 1) % 2 ^ 23 = n % 2 ^ 23 + 1) ∨
      (n % 2 ^ 23 = 2 ^ 23 - 1 ∧ (n + 1) / 2 ^ 23 = n / 2 ^ 23 + 1 ∧ (n + 1) % 2 ^ 23 = 0) := by
    omega
  have hpow : ∀ k : ℤ, (0 : ℝ) < 2 ^ k := fun k => zpow_pos two_pos k
  generalize n / 2 ^ 23 = e, n % 2 ^ 23 = m at hdiv
  obtain ⟨he, hm⟩ | ⟨rfl, he, hm⟩ := hdiv <;> rw [he, hm, magnitude, magnitude]
  · have hlt : (m : ℝ) / 2 ^ 23 < ((m + 1 : Nat) : ℝ) / 2 ^ 23 := by
      gcongr
      exact Nat.lt_succ_self m
    split
    · exact mul_lt_mul_of_pos_right hlt (hpow _)
    · exact mul_lt_mul_of_pos_right (add_lt_add_right hlt 1) (hpow _)
  · -- the largest mantissa is followed by the next power of two
    have hnext : ((e + 1 : Nat) : ℤ) - 127 = (e : ℤ) - 127 + 1 := by omega
    have hpos := hpow ((e : ℤ) - 127)
    rw [if_neg (Nat.succ_ne_zero e), hnext, zpow_add_one₀ two_ne_zero]
    split
    · next h => norm_num [h]
    · linarith

/-- Up to infinity. -/
theorem floatAbs_lt {i j : Nat} (hj : j ≤ 255 * 2 ^ 23) (hij : i < j) :
    floatAbs (i / 2 ^ 23) (i % 2 ^ 23) < floatAbs (j / 2 ^ 23) (j % 2 ^ 23) := by
  have hlt := strictMono_magnitude hij
  rw [floatAbs, floatAbs, if_neg (by omega)]
  split
  · exact EReal.coe_lt_top _
  · exact EReal.coe_lt_coe_iff.mpr hlt

theorem floatAbs_zero : floatAbs (0 / 2 ^ 23) (0 % 2 ^ 23) = 0 := by simp [floatAbs, magnitude]

/-- The number for the bits with their sign. -/
noncomputable def nthFloat (k : ℤ) : EReal :=
  let x := floatAbs (k.natAbs / 2 ^ 23) (k.natAbs % 2 ^ 23)
  if k < 0 then -x else x

theorem nthFloat_lt {k l : ℤ} (hk : k.natAbs ≤ 255 * 2 ^ 23) (hl : l.natAbs ≤ 255 * 2 ^ 23)
    (hkl : k < l) : nthFloat k < nthFloat l := by
  have hpos : ∀ {i : Nat}, i ≤ 255 * 2 ^ 23 → 0 < i →
      0 < floatAbs (i / 2 ^ 23) (i % 2 ^ 23) := fun hi h => floatAbs_zero ▸ floatAbs_lt hi h
  unfold nthFloat
  split <;> split
  · exact EReal.neg_lt_neg_iff.mpr (floatAbs_lt hk (by omega))
  · refine (EReal.neg_lt_zero.mpr (hpos hk (by omega))).trans_le ?_
    rcases Nat.eq_zero_or_pos l.natAbs with h | h
    · rw [h, floatAbs_zero]
    · exact (hpos hl h).le
  · omega
  · exact floatAbs_lt hl (by omega)

theorem nthFloat_lt_iff {k l : ℤ} (hk : k.natAbs ≤ 255 * 2 ^ 23) (hl : l.natAbs ≤ 255 * 2 ^ 23) :
    nthFloat k < nthFloat l ↔ k < l := by
  refine ⟨fun h => ?_, nthFloat_lt hk hl⟩
  rcases Int.lt_trichotomy k l with hlt | rfl | hgt
  · exact hlt
  · exact absurd h (lt_irrefl _)
  · exact absurd (nthFloat_lt hl hk hgt) (lt_asymm h)

/-- The bits as an integer. -/
def signedBits : ℤ := if 2 ^ 31 ≤ u.toNat then 2 ^ 31 - u.toNat else u.toNat

theorem natAbs_signedBits : (signedBits u).natAbs = u.toNat % 2 ^ 31 := by
  have hlt := u.toNat_lt
  unfold signedBits
  split <;> omega

theorem floatValue_eq : floatValue u = nthFloat (signedBits u) := by
  have hexp : exponent u = u.toNat % 2 ^ 31 / 2 ^ 23 := by unfold exponent; omega
  have hman : mantissa u = u.toNat % 2 ^ 31 % 2 ^ 23 := by unfold mantissa; omega
  rw [floatValue, nthFloat, natAbs_signedBits, ← hexp, ← hman]
  by_cases hzero : u.toNat % 2 ^ 31 = 0
  · rw [hexp, hman, hzero, floatAbs_zero]
    simp
  · have hneg : Negative u ↔ signedBits u < 0 := by
      unfold Negative signedBits
      split <;> omega
    simp only [hneg]

/-- **The codes are ordered as the numbers**, but for the two zeros: they are the same number,
and `-0` has the smaller code.  Every word is a code, of one word. -/
theorem encodeFloatOrdered_lt_iff (a b : UInt32) : (¬ IsNaN a → ¬ IsNaN b →
      ((floatValue a < floatValue b ↔ encodeFloatOrdered a < encodeFloatOrdered b) ↔
        ¬ (a = 0x80000000 ∧ b = 0))) ∧
    decodeFloatOrdered (encodeFloatOrdered a) = a ∧
      encodeFloatOrdered (decodeFloatOrdered a) = a := by
  refine ⟨fun ha hb => ?_, decodeFloatOrdered_encodeFloatOrdered a,
    encodeFloatOrdered_decodeFloatOrdered a⟩
  have hle : ∀ u, ¬ IsNaN u → (signedBits u).natAbs ≤ 255 * 2 ^ 23 := fun u hu => by
    unfold IsNaN exponent mantissa at hu
    rw [natAbs_signedBits]
    omega
  have halt := a.toNat_lt
  have hcode := toNat_encodeFloatOrdered a
  have hcode' := toNat_encodeFloatOrdered b
  rw [floatValue_eq, floatValue_eq, nthFloat_lt_iff (hle a ha) (hle b hb),
    UInt32.lt_iff_toNat_lt, ← UInt32.toNat_inj, ← UInt32.toNat_inj]
  change _ ↔ ¬ (a.toNat = 2 ^ 31 ∧ b.toNat = 0)
  unfold signedBits
  split at hcode <;> split at hcode' <;> simp only [*, if_true, if_false] <;> omega

/-- `-0` and `0` are the same number. -/
theorem zeros_apart : ¬ IsNaN 0x80000000 ∧ ¬ IsNaN 0 ∧ ¬ (floatValue 0x80000000 < floatValue 0 ↔
      encodeFloatOrdered 0x80000000 < encodeFloatOrdered 0) := by
  have hzeros : floatValue 0x80000000 = floatValue 0 := by
    rw [floatValue_eq, floatValue_eq]
    rfl
  rw [hzeros, lt_self_iff_false]
  exact ⟨fun h => h.2 rfl, fun h => h.2 rfl, by decide⟩

end PipeANN.FloatOrder
