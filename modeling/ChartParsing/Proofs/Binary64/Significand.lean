import ChartParsing.Proofs.Binary64.Format
import ChartParsing.Proofs.Binary64.Rounding

/-!
# Rounding a significand

A significand with too many digits is rounded digit by digit: the digits are dropped one after the
other, while two bits keep what is lost.  The outcome is a rounded quotient.

* `Residue`: what the two bits know after some digits are dropped.
* `Residue.roundedMantissa`: **dropping digits and rounding is rounding a quotient**.
* `toNat_pack_round`: the bits of a significand that is rounded and packed.
-/

namespace ChartParsing.Binary64

open Float.Model (Format UnpackedFloat)
open Float.Model.UnpackedFloat

/-! ## Dropping digits -/

/-- What is kept of `m` after its last `n` digits are dropped. -/
structure Residue (m n : Nat) (em : ExtendedMantissa) : Prop where
  mantissa_eq : em.mantissa = m / 2 ^ n
  roundBit_iff : em.roundBit = true ↔ 2 ^ n ≤ 2 * (m % 2 ^ n)
  stickyBit_iff : em.stickyBit = true ↔ m % 2 ^ n ≠ 0 ∧ 2 * (m % 2 ^ n) ≠ 2 ^ n

theorem Residue.shiftRightOne {m n : Nat} {em : ExtendedMantissa} (h : Residue m n em) :
    Residue m (n + 1) em.shiftRightOne := by
  have hpos := Nat.two_pow_pos n
  have hlt := Nat.mod_lt m hpos
  have hpow : 2 ^ (n + 1) = 2 * 2 ^ n := Nat.pow_succ'
  have hmod : m % 2 ^ (n + 1) = m % 2 ^ n + 2 ^ n * (m / 2 ^ n % 2) := by
    rw [Nat.pow_succ, Nat.mod_mul]
  have hbit : m / 2 ^ n % 2 = 0 ∨ m / 2 ^ n % 2 = 1 := Nat.mod_two_eq_zero_or_one _
  refine ⟨?_, ?_, ?_⟩
  · show em.mantissa / 2 = _
    rw [h.mantissa_eq, Nat.div_div_eq_div_mul, Nat.pow_succ]
  · show (em.mantissa % 2 != 0) = true ↔ _
    rw [h.mantissa_eq, bne_iff_ne, hmod, hpow]
    rcases hbit with hbit | hbit
    · rw [hbit]
      omega
    · rw [hbit]
      omega
  · show (em.roundBit || em.stickyBit) = true ↔ _
    rw [Bool.or_eq_true, h.roundBit_iff, h.stickyBit_iff, hmod, hpow]
    rcases hbit with hbit | hbit
    · rw [hbit]
      omega
    · rw [hbit]
      omega

theorem residue_shiftRight (m n : Nat) :
    Residue m n (ExtendedMantissa.ofMantissaAndAccuracy m .exact >>> n) := by
  show Residue m n (n.repeat ExtendedMantissa.shiftRightOne ⟨m, false, false⟩)
  induction n with
  | zero => exact ⟨by simp [Nat.repeat], by simp [Nat.repeat, Nat.mod_one],
      by simp [Nat.repeat, Nat.mod_one]⟩
  | succ n ih => exact ih.shiftRightOne

/-- **Dropping digits and rounding is rounding a quotient.** -/
theorem Residue.roundedMantissa {m n : Nat} {em : ExtendedMantissa} (h : Residue m n em) :
    em.roundedMantissa = roundDiv m (2 ^ n) := by
  obtain ⟨mantissa, r, s⟩ := em
  obtain ⟨hm, hr, hs⟩ := h
  simp only at hm hr hs
  have hlt := Nat.mod_lt m (Nat.two_pow_pos n)
  rw [roundDiv, ← hm]
  cases r <;> cases s <;>
    simp only [Bool.false_eq_true, false_iff, true_iff, ExtendedMantissa.roundedMantissa,
      ExtendedMantissa.accuracy, Accuracy.roundToNearestEven] at hr hs ⊢
  · rw [if_pos (by omega)]
  · rw [if_pos (by omega)]
  · split <;> omega
  · rw [if_neg (by omega)]

/-! ## Rounding and packing -/

theorem targetExponent_eq (m : Nat) (e : Int) :
    Format.binary64.targetExponent (Float.Model.totalExponent m e) =
      max (m.log2 + e - storedDigits) (-unitPower) := by
  have hbits : (Format.binary64.mantissaBits : Int) = 53 := rfl
  have hmin : Format.binary64.minExponent = -1074 := rfl
  rw [Format.targetExponent, Float.Model.totalExponent, hbits, hmin, storedDigits, unitPower]
  omega

/-- Where the exponent is below its target by `n`, this many digits are dropped. -/
theorem shiftToTargetExponent_eq {m n : Nat} {e t : Int} (he : e + n = t)
    (ht : max (m.log2 + e - storedDigits) (-unitPower) = t) :
    shiftToTargetExponent Format.binary64 m e .exact =
      (ExtendedMantissa.ofMantissaAndAccuracy m .exact >>> n, t) := by
  have hn : (t - e).toNat = n := by omega
  have ht' : e + ((t - e).toNat : Int) = t := by omega
  rw [shiftToTargetExponent]
  simp only [targetExponent_eq]
  rw [ht, shiftToExponent, ht', hn]

/-- **A significand whose last `n` digits are to be dropped** is rounded to a quotient; the bits are
those of the shift and of the quotient. -/
theorem toNat_pack_round {m n shift : Nat} (hlog : m.log2 ≤ n + storedDigits)
    (hfull : shift ≠ 0 → m.log2 = n + storedDigits)
    (hfinite : shift * fieldStep + roundDiv m (2 ^ n) < infinityBits) :
    (UnpackedFloat.pack Format.binary64 (roundWithAccuracy Format.binary64 .positive m
      ((shift : Int) - unitPower - n) .exact)).toNat = shift * fieldStep + roundDiv m (2 ^ n) := by
  have hle : roundDiv m (2 ^ n) ≤ 2 * fieldStep :=
    Nat.le_trans (roundDiv_le_succ _ _) (div_two_pow_lt hlog)
  have hge : shift ≠ 0 → fieldStep ≤ roundDiv m (2 ^ n) :=
    fun h => Nat.le_trans (le_div_two_pow (hfull h)) (div_le_roundDiv _ _)
  have hfirst := shiftToTargetExponent_eq (m := m) (n := n) (t := (shift : Int) - unitPower)
    (Int.sub_add_cancel _ _) (by rw [storedDigits, unitPower] at *; omega)
  rw [roundWithAccuracy, hfirst]
  simp only
  rw [(residue_shiftRight m n).roundedMantissa]
  generalize roundDiv m (2 ^ n) = r at *
  rcases Nat.eq_or_lt_of_le hle with hcarry | hlt
  · -- the carry makes the significand one digit longer, and this digit is dropped again
    subst hcarry
    have hlog : (2 * fieldStep).log2 = 53 := by decide
    have hsecond := shiftToTargetExponent_eq (m := 2 * fieldStep) (n := 1)
      (e := (shift : Int) - unitPower) rfl (by rw [hlog, storedDigits, unitPower]; omega)
    have hexp : (shift : Int) - unitPower + (1 : Nat) = ((shift + 1 : Nat) : Int) - unitPower := by
      omega
    have hhalf : 2 * fieldStep / 2 ^ 1 = fieldStep := by decide
    have hbits : (shift + 1) * fieldStep + fieldStep = shift * fieldStep + 2 * fieldStep := by
      rw [Nat.succ_mul]
      omega
    have hfinite' : (shift + 1) * fieldStep + fieldStep < infinityBits :=
      Nat.lt_of_le_of_lt (Nat.le_of_eq hbits) hfinite
    rw [hsecond]
    simp only [(residue_shiftRight _ _).mantissa_eq, hhalf]
    rw [dif_neg (by decide), hexp,
      toNat_pack (by decide) (by decide) (fun _ => Nat.le_refl _) hfinite', hbits]
  · have hlog' : r.log2 ≤ 52 := by
      rcases Nat.eq_zero_or_pos r with hzero | hpos
      · rw [hzero, Nat.log2_zero]
        exact Nat.zero_le _
      · exact Nat.le_of_lt_succ ((Nat.log2_lt (Nat.ne_of_gt hpos)).mpr hlt)
    have hfull' : shift ≠ 0 → r.log2 = 52 := by
      intro h
      have hne : r ≠ 0 := Nat.ne_of_gt (Nat.lt_of_lt_of_le (by decide) (hge h))
      exact (Nat.log2_eq_iff hne).mpr ⟨hge h, hlt⟩
    have hsecond := shiftToTargetExponent_eq (m := r) (n := 0)
      (e := (shift : Int) - unitPower) (Int.add_zero _)
      (by rw [storedDigits, unitPower] at *; omega)
    rw [hsecond]
    simp only [(residue_shiftRight _ _).mantissa_eq, Nat.pow_zero, Nat.div_one]
    rcases Nat.eq_zero_or_pos r with hzero | hpos
    · have hshift : shift = 0 := by
        rcases Nat.eq_zero_or_pos shift with h | h
        · exact h
        · rw [hzero] at hge
          exact absurd (hge (Nat.ne_of_gt h)) (by decide)
      rw [dif_pos hzero, hshift, hzero]
      rfl
    · rw [dif_neg (Nat.ne_of_gt hpos), toNat_pack hpos hlt hge hfinite]

end ChartParsing.Binary64
