import ChartParsing.Binary64
import Mathlib

/-!
# Rounding in whole numbers

`nearestBits` sees its fraction only through the quotient, and it keeps the order of fractions.

* `nearestBits_mul_right`: a fraction may be expanded.
* `nearestBits_mono`: **a greater numerator has no smaller double**.
* `unitsOfBits_mono`: greater bits stand for no smaller double.

Where two quotients have the same shift, the rounded significands are compared.  Otherwise a whole
`fieldStep` lies between the two shifts, and a significand has at most two of them.
-/

namespace ChartParsing.Binary64

/-! ## Rounded quotients -/

theorem div_le_roundDiv (num den : Nat) : num / den ≤ roundDiv num den := by
  rw [roundDiv]
  split
  · exact Nat.le_refl _
  · exact Nat.le_succ _

theorem roundDiv_le_succ (num den : Nat) : roundDiv num den ≤ num / den + 1 := by
  rw [roundDiv]
  split
  · exact Nat.le_succ _
  · exact Nat.le_refl _

theorem roundDiv_mul_right {c : Nat} (hc : 0 < c) (num den : Nat) :
    roundDiv (num * c) (den * c) = roundDiv num den := by
  have hlt : 2 * (num % den * c) < den * c ↔ 2 * (num % den) < den := by
    rw [← Nat.mul_assoc]
    exact Nat.mul_lt_mul_right hc
  have heq : 2 * (num % den * c) = den * c ↔ 2 * (num % den) = den := by
    rw [← Nat.mul_assoc]
    exact Nat.mul_left_inj (Nat.ne_of_gt hc)
  simp only [roundDiv, Nat.mul_mod_mul_right, Nat.mul_div_mul_right _ _ hc, hlt, heq]

theorem roundDiv_mono {m n : Nat} (den : Nat) (h : m ≤ n) : roundDiv m den ≤ roundDiv n den := by
  rcases Nat.eq_or_lt_of_le (Nat.div_le_div_right (c := den) h) with hquot | hquot
  · -- the quotients agree, so the remainders decide
    have hm := Nat.div_add_mod m den
    have hn := Nat.div_add_mod n den
    rw [← hquot] at hn
    have hrem : m % den ≤ n % den := by omega
    rw [roundDiv, roundDiv, ← hquot]
    split
    · split
      · exact Nat.le_refl _
      · exact Nat.le_succ _
    · exact Nat.le_of_eq (if_neg (by omega)).symm
  · exact Nat.le_trans (roundDiv_le_succ m den) (Nat.le_trans hquot (div_le_roundDiv n den))

/-! ## Rounded doubles -/

/-- By how much the significand of the double nearest to `units / den` is shifted. -/
def shiftOf (units den : Nat) : Nat :=
  (units / den).log2 - storedDigits

/-- The bits of the double nearest to `units / den`, if exponents had no limit. -/
def unlimitedBits (units den : Nat) : Nat :=
  shiftOf units den * fieldStep + roundDiv units (den <<< shiftOf units den)

theorem nearestBits_eq_min (num den : Nat) :
    nearestBits num den = min (unlimitedBits (num <<< unitPower) den) infinityBits :=
  rfl

theorem unlimitedBits_mul_right {c : Nat} (hc : 0 < c) (units den : Nat) :
    unlimitedBits (units * c) (den * c) = unlimitedBits units den := by
  have hshift : shiftOf (units * c) (den * c) = shiftOf units den := by
    rw [shiftOf, Nat.mul_div_mul_right _ _ hc, shiftOf]
  have hden : (den * c) <<< shiftOf units den = den <<< shiftOf units den * c := by
    rw [Nat.shiftLeft_eq, Nat.shiftLeft_eq, Nat.mul_right_comm]
  rw [unlimitedBits, hshift, hden, roundDiv_mul_right hc, unlimitedBits]

theorem nearestBits_mul_right {c : Nat} (hc : 0 < c) (num den : Nat) :
    nearestBits (num * c) (den * c) = nearestBits num den := by
  have hunits : (num * c) <<< unitPower = num <<< unitPower * c := by
    rw [Nat.shiftLeft_eq, Nat.shiftLeft_eq, Nat.mul_right_comm]
  rw [nearestBits_eq_min, hunits, unlimitedBits_mul_right hc, nearestBits_eq_min]

/-- Without its last `n` digits, a number of at most `n + 53` digits has at most 53. -/
theorem div_two_pow_lt {m n : Nat} (h : m.log2 ≤ n + storedDigits) : m / 2 ^ n < 2 * fieldStep := by
  rw [Nat.div_lt_iff_lt_mul (Nat.two_pow_pos n)]
  calc m < 2 ^ (m.log2 + 1) := Nat.lt_log2_self
    _ ≤ 2 ^ (53 + n) := Nat.pow_le_pow_right (by decide) (by rw [storedDigits] at h; omega)
    _ = 2 * fieldStep * 2 ^ n := Nat.pow_add 2 53 n

theorem le_div_two_pow {m n : Nat} (h : m.log2 = n + storedDigits) : fieldStep ≤ m / 2 ^ n := by
  have hne : m ≠ 0 := by
    intro hzero
    rw [hzero, Nat.log2_zero, storedDigits] at h
    omega
  rw [Nat.le_div_iff_mul_le (Nat.two_pow_pos n)]
  calc fieldStep * 2 ^ n = 2 ^ (52 + n) := (Nat.pow_add 2 52 n).symm
    _ = 2 ^ m.log2 := by rw [h, Nat.add_comm, storedDigits]
    _ ≤ m := Nat.log2_self_le hne

theorem div_shiftOf (units den : Nat) :
    units / (den <<< shiftOf units den) = units / den / 2 ^ shiftOf units den := by
  rw [Nat.shiftLeft_eq, Nat.div_div_eq_div_mul]

/-- A rounded significand has at most 53 binary digits, or is the least number with 54. -/
theorem roundDiv_shiftOf_le (units den : Nat) :
    roundDiv units (den <<< shiftOf units den) ≤ 2 * fieldStep := by
  refine Nat.le_trans (roundDiv_le_succ _ _) ?_
  rw [div_shiftOf]
  refine div_two_pow_lt ?_
  rw [shiftOf]
  omega

/-- A shifted significand has all its 53 binary digits. -/
theorem le_roundDiv_shiftOf {units den : Nat} (h : shiftOf units den ≠ 0) :
    fieldStep ≤ roundDiv units (den <<< shiftOf units den) := by
  refine Nat.le_trans ?_ (div_le_roundDiv _ _)
  rw [div_shiftOf]
  refine le_div_two_pow ?_
  rw [shiftOf] at h ⊢
  omega

theorem log2_mono {m n : Nat} (h : m ≤ n) : m.log2 ≤ n.log2 := by
  rcases Nat.eq_zero_or_pos m with rfl | hm
  · exact Nat.zero_le _
  · exact (Nat.le_log2 (by omega)).mpr (Nat.le_trans (Nat.log2_self_le (by omega)) h)

theorem unlimitedBits_mono {m n : Nat} (den : Nat) (h : m ≤ n) :
    unlimitedBits m den ≤ unlimitedBits n den := by
  have hshift : shiftOf m den ≤ shiftOf n den :=
    Nat.sub_le_sub_right (log2_mono (Nat.div_le_div_right h)) _
  rcases Nat.eq_or_lt_of_le hshift with heq | hlt
  · rw [unlimitedBits, unlimitedBits, ← heq]
    exact Nat.add_le_add_left (roundDiv_mono _ h) _
  · have hle := roundDiv_shiftOf_le m den
    have hge : fieldStep ≤ roundDiv n (den <<< shiftOf n den) := le_roundDiv_shiftOf (by omega)
    have hstep : (shiftOf m den + 1) * fieldStep ≤ shiftOf n den * fieldStep :=
      Nat.mul_le_mul_right _ hlt
    rw [Nat.succ_mul] at hstep
    rw [unlimitedBits, unlimitedBits]
    omega

/-- **A greater numerator has no smaller double.** -/
theorem nearestBits_mono {m n : Nat} (den : Nat) (h : m ≤ n) :
    nearestBits m den ≤ nearestBits n den := by
  have hunits : m <<< unitPower ≤ n <<< unitPower := by
    rw [Nat.shiftLeft_eq, Nat.shiftLeft_eq]
    exact Nat.mul_le_mul_right _ h
  have hmono := unlimitedBits_mono den hunits
  rw [nearestBits_eq_min, nearestBits_eq_min]
  omega

/-- Greater bits stand for no smaller double. -/
theorem unitsOfBits_mono {a b : Nat} (h : a ≤ b) (hb : b < infinityBits) :
    unitsOfBits a ≤ unitsOfBits b := by
  rcases Nat.lt_or_ge (unitsOfBits b) (unitsOfBits a) with hlt | hge
  · have hle := nearestBits_mono (1 <<< unitPower) (Nat.le_of_lt hlt)
    rw [nearestBits_unitsOfBits hb, nearestBits_unitsOfBits (Nat.lt_of_le_of_lt h hb)] at hle
    exact Nat.le_of_eq (congrArg unitsOfBits (Nat.le_antisymm h hle))
  · exact hge

/-! ## Whole numbers of units -/

/-- The bits of one. -/
def oneBits : Nat := 0x3FF0000000000000

/-- How many units make one. -/
def unitsOfOne : Nat := 1 <<< unitPower

theorem shiftLeft_unitPower (num : Nat) : num <<< unitPower = num * unitsOfOne := by
  rw [unitsOfOne, Nat.shiftLeft_eq, Nat.shiftLeft_eq, Nat.one_mul]

theorem unitsOfOne_pos : 0 < unitsOfOne :=
  shiftLeft_pos Nat.one_pos _

theorem nearestBits_mul_unitsOfOne (num : Nat) :
    nearestBits num (unitsOfOne * unitsOfOne) =
      min (unlimitedBits num unitsOfOne) infinityBits := by
  rw [nearestBits_eq_min, shiftLeft_unitPower, unlimitedBits_mul_right unitsOfOne_pos]

theorem nearestBits_unitsOfBits_mul {b : Nat} (h : b < infinityBits) :
    nearestBits (unitsOfBits b * unitsOfOne) (unitsOfOne * unitsOfOne) = b := by
  rw [nearestBits_mul_right unitsOfOne_pos]
  exact nearestBits_unitsOfBits h

theorem unitsOfBits_oneBits : unitsOfBits oneBits = unitsOfOne := by decide

theorem unitsOfBits_le {b : Nat} (h : b ≤ oneBits) : unitsOfBits b ≤ unitsOfOne := by
  rw [← unitsOfBits_oneBits]
  exact unitsOfBits_mono h (by decide)

/-- Below infinity nothing is cut off. -/
theorem unlimitedBits_of_lt {num b : Nat}
    (h : nearestBits num (unitsOfOne * unitsOfOne) ≤ b) (hb : b < infinityBits) :
    unlimitedBits num unitsOfOne = nearestBits num (unitsOfOne * unitsOfOne) := by
  rw [nearestBits_mul_unitsOfOne] at h ⊢
  omega

theorem nearestBits_mul_le {a b : Nat} (ha : a ≤ oneBits) (hb : b ≤ oneBits) :
    nearestBits (unitsOfBits a * unitsOfBits b) (unitsOfOne * unitsOfOne) ≤ a := by
  calc nearestBits (unitsOfBits a * unitsOfBits b) (unitsOfOne * unitsOfOne)
      ≤ nearestBits (unitsOfBits a * unitsOfOne) (unitsOfOne * unitsOfOne) :=
        nearestBits_mono _ (Nat.mul_le_mul_left _ (unitsOfBits_le hb))
    _ = a := nearestBits_unitsOfBits_mul (Nat.lt_of_le_of_lt ha (by decide))

/-! ## Shifted numerators -/

theorem log2_div_two_pow (m k : Nat) : (m / 2 ^ k).log2 = m.log2 - k := by
  induction k with
  | zero => rw [Nat.pow_zero, Nat.div_one, Nat.sub_zero]
  | succ k ih =>
    rw [Nat.pow_succ, ← Nat.div_div_eq_div_mul]
    have hdef := Nat.log2_def (m / 2 ^ k)
    by_cases h : 2 ≤ m / 2 ^ k
    · rw [if_pos h] at hdef
      omega
    · rw [if_neg h] at hdef
      have hhalf : m / 2 ^ k / 2 = 0 := Nat.div_eq_of_lt (Nat.lt_of_not_le h)
      rw [hhalf, Nat.log2_zero]
      omega

theorem shiftOf_shiftLeft {m : Nat} (hm : m ≠ 0) (u : Nat) :
    shiftOf (m <<< u) unitsOfOne = m.log2 + u - unitPower - storedDigits := by
  rw [shiftOf, unitsOfOne, Nat.shiftLeft_eq 1, Nat.one_mul, log2_div_two_pow, log2_shiftLeft_eq hm]

theorem unlimitedBits_shiftLeft {m u n : Nat}
    (h : n + u = shiftOf (m <<< u) unitsOfOne + unitPower) :
    unlimitedBits (m <<< u) unitsOfOne =
      shiftOf (m <<< u) unitsOfOne * fieldStep + roundDiv m (2 ^ n) := by
  have hden : unitsOfOne <<< shiftOf (m <<< u) unitsOfOne = 2 ^ n * 2 ^ u := by
    rw [← Nat.pow_add, h, Nat.shiftLeft_eq, unitsOfOne, Nat.shiftLeft_eq, Nat.one_mul,
      ← Nat.pow_add, Nat.add_comm]
  rw [unlimitedBits, hden, Nat.shiftLeft_eq, roundDiv_mul_right (Nat.two_pow_pos u)]

end ChartParsing.Binary64
