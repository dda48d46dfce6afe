import ChartParsing.Proofs.Binary64.Significand

/-!
# Doubles between zero and one

The bits of a double between zero and one, read as a number, are at most those of one; minus zero is
left out.  Such doubles are multiplied and compared through their bits.

* `toNat_mul`: **a product is the double nearest to the exact product**.
* `InUnit.mul`, `toNat_mul_mono`: products stay between zero and one and grow with their factors.
* `lt_iff`, `le_iff`: doubles without a sign are ordered as their bits.
-/

namespace ChartParsing.Binary64

open Float.Model (Format UnpackedFloat)
open Float.Model.UnpackedFloat

/-! ## Unpacking -/

/-- The double lies between zero and one and is not minus zero. -/
def InUnit (x : Float) : Prop :=
  x.toBits.toNat ≤ oneBits

theorem unpack_of_zero {x : Float} (h : x.toBits.toNat = 0) :
    x.toModel.unpack = .zero .positive := by
  have hbits : x.toBits.toBitVec = 0#64 := BitVec.eq_of_toNat_eq h
  show UnpackedFloat.unpack Format.binary64 x.toBits.toBitVec = _
  rw [hbits]
  rfl

theorem InUnit.lt_infinityBits {x : Float} (h : InUnit x) : x.toBits.toNat < infinityBits :=
  Nat.lt_of_le_of_lt h (by decide)

theorem unpack_eq {x : Float} (h : x.toBits.toNat < infinityBits) (hpos : 0 < x.toBits.toNat) :
    x.toModel.unpack = .finite .positive (significandOfBits x.toBits.toNat)
      ((shiftOfBits x.toBits.toNat : Int) - unitPower) (significandOfBits_pos hpos) :=
  unpack_of_pos (b := x.toBits.toBitVec) h hpos

/-! ## Products -/

/-- The product of two significands has enough digits for the sum of their shifts. -/
theorem shifts_le (a b : Nat) (ha : 0 < a) (hb : 0 < b) :
    shiftOfBits a + shiftOfBits b ≤
      shiftOf ((significandOfBits a * significandOfBits b) <<< (shiftOfBits a + shiftOfBits b))
        unitsOfOne + unitPower := by
  have hsa := significandOfBits_pos ha
  have hsb := significandOfBits_pos hb
  rw [shiftOf_shiftLeft (Nat.ne_of_gt (Nat.mul_pos hsa hsb))]
  rcases Nat.eq_zero_or_pos (shiftOfBits a) with hza | hpa
  · rcases Nat.eq_zero_or_pos (shiftOfBits b) with hzb | hpb
    · rw [hza, hzb]
      exact Nat.zero_le _
    · have hfull := (log2_significandOfBits b).2 (Nat.ne_of_gt hpb)
      have hlog := log2_mono (Nat.le_mul_of_pos_left (significandOfBits b) hsa)
      omega
  · have hfull := (log2_significandOfBits a).2 (Nat.ne_of_gt hpa)
    have hlog := log2_mono (Nat.le_mul_of_pos_right (significandOfBits a) hsb)
    omega

theorem unitsOfBits_mul (a b : Nat) : unitsOfBits a * unitsOfBits b =
    (significandOfBits a * significandOfBits b) <<< (shiftOfBits a + shiftOfBits b) := by
  rw [unitsOfBits, unitsOfBits, Nat.shiftLeft_eq, Nat.shiftLeft_eq, Nat.shiftLeft_eq, Nat.pow_add,
    Nat.mul_mul_mul_comm]

theorem toNat_pack_mul {a b : Nat} (ha : 0 < a) (hb : 0 < b) (ha' : a ≤ oneBits)
    (hb' : b ≤ oneBits) :
    (UnpackedFloat.pack Format.binary64 (roundWithAccuracy Format.binary64 .positive
      (significandOfBits a * significandOfBits b)
      ((shiftOfBits a : Int) - unitPower + ((shiftOfBits b : Int) - unitPower)) .exact)).toNat =
      nearestBits (unitsOfBits a * unitsOfBits b) (unitsOfOne * unitsOfOne) := by
  have hle := nearestBits_mul_le ha' hb'
  have hlt : a < infinityBits := Nat.lt_of_le_of_lt ha' (by decide)
  have hunlimited := unlimitedBits_of_lt hle hlt
  have hshifts := shifts_le a b ha hb
  have hne : significandOfBits a * significandOfBits b ≠ 0 :=
    Nat.ne_of_gt (Nat.mul_pos (significandOfBits_pos ha) (significandOfBits_pos hb))
  have hshift := shiftOf_shiftLeft hne (shiftOfBits a + shiftOfBits b)
  obtain ⟨n, hn⟩ := Nat.exists_eq_add_of_le' hshifts
  have hbits := unlimitedBits_shiftLeft hn.symm
  rw [← unitsOfBits_mul, hunlimited] at hbits
  rw [← unitsOfBits_mul] at hshift hn
  have hexp : (shiftOfBits a : Int) - unitPower + ((shiftOfBits b : Int) - unitPower) =
      (shiftOf (unitsOfBits a * unitsOfBits b) unitsOfOne : Int) - unitPower - n := by
    omega
  rw [hbits] at hle ⊢
  rw [hexp, toNat_pack_round]
  · omega
  · omega
  · exact Nat.lt_of_le_of_lt hle hlt

/-- **A product is the double nearest to the exact product.** -/
theorem toNat_mul {x y : Float} (hx : InUnit x) (hy : InUnit y) :
    (x * y).toBits.toNat = nearestBits (unitsOfBits x.toBits.toNat * unitsOfBits y.toBits.toNat)
      (unitsOfOne * unitsOfOne) := by
  show (UnpackedFloat.pack Format.binary64
    (UnpackedFloat.mul Format.binary64 x.toModel.unpack y.toModel.unpack)).toNat = _
  rcases Nat.eq_zero_or_pos x.toBits.toNat with hxzero | hxpos
  · have hle := nearestBits_mul_le hx hy
    rw [hxzero] at hle ⊢
    rw [Nat.le_zero.mp hle, unpack_of_zero hxzero]
    rcases Nat.eq_zero_or_pos y.toBits.toNat with hyzero | hypos
    · rw [unpack_of_zero hyzero]
      rfl
    · rw [unpack_eq hy.lt_infinityBits hypos]
      rfl
  rcases Nat.eq_zero_or_pos y.toBits.toNat with hyzero | hypos
  · have hle := nearestBits_mul_le hy hx
    rw [Nat.mul_comm, hyzero] at hle
    rw [hyzero, Nat.le_zero.mp hle, unpack_of_zero hyzero,
      unpack_eq hx.lt_infinityBits hxpos]
    rfl
  rw [unpack_eq hx.lt_infinityBits hxpos, unpack_eq hy.lt_infinityBits hypos]
  exact toNat_pack_mul hxpos hypos hx hy

/-- Products stay between zero and one. -/
theorem InUnit.mul {x y : Float} (hx : InUnit x) (hy : InUnit y) : InUnit (x * y) := by
  rw [InUnit, toNat_mul hx hy]
  exact Nat.le_trans (nearestBits_mul_le hx hy) hx

/-- **Products grow with their factors.** -/
theorem toNat_mul_mono {x x' y y' : Float} (hx' : InUnit x') (hy' : InUnit y')
    (hx : x.toBits.toNat ≤ x'.toBits.toNat) (hy : y.toBits.toNat ≤ y'.toBits.toNat) :
    (x * y).toBits.toNat ≤ (x' * y').toBits.toNat := by
  have hxy : InUnit x ∧ InUnit y := ⟨Nat.le_trans hx hx', Nat.le_trans hy hy'⟩
  rw [toNat_mul hxy.1 hxy.2, toNat_mul hx' hy']
  exact nearestBits_mono _ (Nat.mul_le_mul (unitsOfBits_mono hx hx'.lt_infinityBits)
    (unitsOfBits_mono hy hy'.lt_infinityBits))

/-! ## The order -/

/-- Doubles are compared by their shifts and then by their significands. -/
theorem compare_shifts (a b : Nat) :
    (compare ((shiftOfBits a : Int) - unitPower) ((shiftOfBits b : Int) - unitPower)).then
      (compare (significandOfBits a) (significandOfBits b)) = compare a b := by
  have hstep : ∀ {c d : Nat}, c < d → shiftOfBits c < shiftOfBits d ∨
      shiftOfBits c = shiftOfBits d ∧ significandOfBits c < significandOfBits d := by
    intro c d h
    simp only [significandOfBits, shiftOfBits, fieldStep]
    omega
  rcases Nat.lt_trichotomy a b with h | rfl | h
  · rw [Nat.compare_eq_lt.mpr h]
    rcases hstep h with hshift | ⟨hshift, hsig⟩
    · rw [Int.compare_eq_lt.mpr (by omega)]
      rfl
    · rw [hshift, Int.compare_eq_eq.mpr rfl, Nat.compare_eq_lt.mpr hsig]
      rfl
  · rw [Int.compare_eq_eq.mpr rfl, Nat.compare_eq_eq.mpr rfl, Nat.compare_eq_eq.mpr rfl]
    rfl
  · rw [Nat.compare_eq_gt.mpr h]
    rcases hstep h with hshift | ⟨hshift, hsig⟩
    · rw [Int.compare_eq_gt.mpr (by omega)]
      rfl
    · rw [hshift, Int.compare_eq_eq.mpr rfl, Nat.compare_eq_gt.mpr hsig]
      rfl

/-- A double is its bits. -/
theorem eq_of_toNat_toBits_eq {x y : Float} (h : x.toBits.toNat = y.toBits.toNat) : x = y := by
  obtain ⟨⟨a, _⟩⟩ := x
  obtain ⟨⟨b, _⟩⟩ := y
  obtain rfl : a = b := UInt64.toNat_inj.mp h
  rfl

section Order

variable {x y : Float}

theorem compare_eq (hx : x.toBits.toNat < infinityBits) (hy : y.toBits.toNat < infinityBits) :
    x.toModel.unpack.compare y.toModel.unpack = some (compare x.toBits.toNat y.toBits.toNat) := by
  rcases Nat.eq_zero_or_pos x.toBits.toNat with hxzero | hxpos
  · rcases Nat.eq_zero_or_pos y.toBits.toNat with hyzero | hypos
    · rw [unpack_of_zero hxzero, unpack_of_zero hyzero, hxzero, hyzero]
      rfl
    · rw [unpack_of_zero hxzero, unpack_eq hy hypos, hxzero, Nat.compare_eq_lt.mpr hypos]
      rfl
  rcases Nat.eq_zero_or_pos y.toBits.toNat with hyzero | hypos
  · rw [unpack_eq hx hxpos, unpack_of_zero hyzero, hyzero, Nat.compare_eq_gt.mpr hxpos]
    rfl
  · rw [unpack_eq hx hxpos, unpack_eq hy hypos, ← compare_shifts]
    rfl

theorem lt_iff (hx : x.toBits.toNat < infinityBits) (hy : y.toBits.toNat < infinityBits) :
    x < y ↔ x.toBits.toNat < y.toBits.toNat := by
  show decide ((x.toModel.unpack.compare y.toModel.unpack == some .lt) = true) = true ↔ _
  rw [compare_eq hx hy, decide_eq_true_iff, beq_iff_eq, Option.some.injEq, Nat.compare_eq_lt]

theorem le_iff (hx : x.toBits.toNat < infinityBits) (hy : y.toBits.toNat < infinityBits) :
    x ≤ y ↔ x.toBits.toNat ≤ y.toBits.toNat := by
  show decide ((x.toModel.unpack.compare y.toModel.unpack).any (·.isLE) = true) = true ↔ _
  rw [compare_eq hx hy, decide_eq_true_iff, Option.any_some, Nat.isLE_compare]

end Order

end ChartParsing.Binary64
