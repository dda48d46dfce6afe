import ChartParsing.Probability
import ChartParsing.Proofs.Binary64.UnitInterval

/-!
# Probabilities in range

The range of probabilities is tested on doubles.  It contains no NaN, no infinity and no negative
double; what is left are the bits from those of the least positive double up to those of one.

* `bits_of_isInRange`: **a probability in range is positive and at most one**, by its bits.
-/

namespace ChartParsing.Binary64

open Float.Model (Format UnpackedFloat)
open Float.Model.UnpackedFloat

/-! ## Doubles out of range -/

theorem unpackSign_of_signBit_le {b : BitVec 64} (h : signBit ≤ b.toNat) :
    Sign.ofBitVec (@unpackSign Format.binary64 b) = .negative := by
  have hsign := toNat_unpackSign b
  have hne : @unpackSign Format.binary64 b ≠ 0#1 := by
    intro heq
    rw [heq, BitVec.toNat_zero, signBit] at hsign
    rw [signBit] at h
    omega
  rw [Sign.ofBitVec, if_neg hne]

theorem not_zero_lt_unpack {b : BitVec 64} (h : signBit ≤ b.toNat) :
    (UnpackedFloat.zero .positive).lt (UnpackedFloat.unpack Format.binary64 b) = false := by
  rw [UnpackedFloat.unpack]
  simp only [unpackSign_of_signBit_le h]
  split
  · split <;> rfl
  · split
    · split <;> rfl
    · rfl

theorem signBit_le_packComponents (e : BitVec 11) (m : BitVec 52) :
    signBit ≤ (packComponents Format.binary64 .negative e m).toNat := by
  have hsign : Sign.negative.toBitVec.toNat = 1 := rfl
  rw [toNat_packComponents, hsign]
  omega

/-- Packing keeps the sign of everything but a NaN. -/
theorem not_zero_lt_pack_unpack {b : BitVec 64} (h : signBit ≤ b.toNat) :
    (UnpackedFloat.zero .positive).lt (UnpackedFloat.unpack Format.binary64
      (UnpackedFloat.pack Format.binary64 (UnpackedFloat.unpack Format.binary64 b))) = false := by
  have hfinite : ∀ m e hm, signBit ≤
      (UnpackedFloat.pack Format.binary64 (.finite .negative m e hm)).toNat := by
    intro m e hm
    rw [UnpackedFloat.pack]
    simp only
    split
    · exact signBit_le_packComponents _ _
    · split <;> exact signBit_le_packComponents _ _
  generalize hu : UnpackedFloat.unpack Format.binary64 b = u
  rw [UnpackedFloat.unpack] at hu
  simp only [unpackSign_of_signBit_le h] at hu
  split at hu
  · split at hu <;> subst hu <;> rfl
  · split at hu
    · split at hu
      · subst hu
        rfl
      · subst hu
        exact not_zero_lt_unpack (hfinite _ _ _)
    · subst hu
      exact not_zero_lt_unpack (hfinite _ _ _)

/-- A double whose exponent field is full is no number above zero and up to one. -/
theorem not_le_one_of_full {b : BitVec 64} (hlow : infinityBits ≤ b.toNat)
    (hhigh : b.toNat < signBit) :
    (UnpackedFloat.unpack Format.binary64
      (UnpackedFloat.pack Format.binary64 (UnpackedFloat.unpack Format.binary64 b))).le
        (1 : Float).toModel.unpack = false := by
  have hexp : @unpackExponent Format.binary64 b = -1#11 := by
    apply BitVec.eq_of_toNat_eq
    rw [toNat_unpackExponent, BitVec.neg_one_eq_allOnes, BitVec.toNat_allOnes]
    simp only [infinityBits, signBit, fieldStep] at *
    omega
  have hsign : @unpackSign Format.binary64 b = 0#1 := by
    apply BitVec.eq_of_toNat_eq
    rw [toNat_unpackSign]
    exact Nat.div_eq_of_lt hhigh
  generalize hu : UnpackedFloat.unpack Format.binary64 b = u
  rw [UnpackedFloat.unpack] at hu
  simp only [hexp, hsign, if_true] at hu
  split at hu <;> subst hu <;> rfl

/-! ## Probabilities -/

theorem toBits_value {p : Probability} (h : p.bits.toNat < infinityBits) :
    p.value.toBits = p.bits := by
  show UInt64.ofBitVec (UnpackedFloat.pack Format.binary64
    (UnpackedFloat.unpack Format.binary64 p.bits.toBitVec)) = p.bits
  rw [pack_unpack h]

theorem toNat_toBits_zero : (0 : Float).toBits.toNat = 0 := by decide

theorem toNat_toBits_one : (1 : Float).toBits.toNat = oneBits := by decide

/-- **A probability in range is a double between zero and one.** -/
theorem bits_of_isInRange {p : Probability} (h : p.isInRange = true) :
    0 < p.bits.toNat ∧ p.bits.toNat ≤ oneBits := by
  rw [Probability.isInRange, Bool.and_eq_true, decide_eq_true_iff, decide_eq_true_iff] at h
  obtain ⟨hpos, hle⟩ := h
  rcases Nat.lt_or_ge p.bits.toNat infinityBits with hlt | hge
  · have hvalue : p.value.toBits.toNat < infinityBits := by rwa [toBits_value hlt]
    rw [lt_iff (by decide) hvalue, toNat_toBits_zero, toBits_value hlt] at hpos
    rw [le_iff hvalue (by decide), toNat_toBits_one, toBits_value hlt] at hle
    exact ⟨hpos, hle⟩
  · rcases Nat.lt_or_ge p.bits.toNat signBit with hsign | hsign
    · have hfalse := not_le_one_of_full (b := p.bits.toBitVec) hge hsign
      exact absurd (hfalse.symm.trans (of_decide_eq_true hle)) Bool.false_ne_true
    · have hfalse := not_zero_lt_pack_unpack (b := p.bits.toBitVec) hsign
      exact absurd (hfalse.symm.trans (of_decide_eq_true hpos)) Bool.false_ne_true

end ChartParsing.Binary64
