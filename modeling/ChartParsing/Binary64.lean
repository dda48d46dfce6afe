/-!
# Doubles as whole numbers

Every finite double is a whole number of units, one unit being the least positive double, which is
one half to the power of 1074. The 64 bits of a positive double, read as a number, grow with it:
they are the exponent field, counted in steps of `fieldStep`, plus the remaining digits. So a
positive fraction is rounded to the nearest double by one division in whole numbers.

* `nearestBits num den`: the double nearest to `num / den`, a half going to the even neighbour.
* `unitsOfBits bits`: how many units a double is.
* `nearestBits_unitsOfBits`: a finite double is the double nearest to itself.
-/

namespace ChartParsing.Binary64

/-- The whole number nearest to `num / den`; a half goes to the even neighbour. -/
def roundDiv (num den : Nat) : Nat :=
  if 2 * (num % den) < den ∨ (2 * (num % den) = den ∧ num / den % 2 = 0) then num / den
  else num / den + 1

/-- The unit is this power of a half. -/
def unitPower : Nat := 1074

/-- How many binary digits of a significand are stored, all but the first one. -/
def storedDigits : Nat := 52

/-- By how much the bits of a double grow when its exponent field grows by one. -/
def fieldStep : Nat := 0x10000000000000

/-- The bits of infinity: the exponent field is full and the rest is zero. -/
def infinityBits : Nat := 0x7FF0000000000000

/-- The bit of the sign. -/
def signBit : Nat := 0x8000000000000000

/-- The bits of the double nearest to `num / den`, those of infinity from halfway beyond the largest
one. The significand has 53 binary digits, or fewer next to zero; a carry out of it moves into the
exponent field by itself. -/
def nearestBits (num den : Nat) : Nat :=
  let units := num <<< unitPower
  let shift := (units / den).log2 - storedDigits
  min (shift * fieldStep + roundDiv units (den <<< shift)) infinityBits

/-- Whether the sign of a double is minus, also for zero. -/
def isNegative (bits : UInt64) : Bool :=
  signBit ≤ bits.toNat

/-- The bits of the magnitude of a double: all but the sign. -/
def magnitudeBits (bits : UInt64) : Nat :=
  bits.toNat % signBit

/-- By how many binary digits the significand of a double is shifted, in units. -/
def shiftOfBits (bits : Nat) : Nat :=
  bits / fieldStep - 1

/-- The significand of a double as a whole number. -/
def significandOfBits (bits : Nat) : Nat :=
  bits - shiftOfBits bits * fieldStep

/-- How many units the double with these magnitude bits stands for, if it is finite. -/
def unitsOfBits (bits : Nat) : Nat :=
  significandOfBits bits <<< shiftOfBits bits

theorem roundDiv_mul_left {den : Nat} (h : 0 < den) (m : Nat) : roundDiv (m * den) den = m := by
  simp [roundDiv, Nat.mul_div_cancel m h, h]

theorem shiftLeft_pos {m : Nat} (h : 0 < m) (s : Nat) : 0 < m <<< s := by
  rw [Nat.shiftLeft_eq]
  exact Nat.mul_pos h (Nat.two_pow_pos s)

theorem log2_shiftLeft_eq {m : Nat} (h : m ≠ 0) (s : Nat) : (m <<< s).log2 = m.log2 + s := by
  induction s with
  | zero => rw [Nat.shiftLeft_zero, Nat.add_zero]
  | succ s ih =>
    have pos : m <<< s ≠ 0 := Nat.ne_of_gt (shiftLeft_pos (Nat.pos_of_ne_zero h) s)
    rw [Nat.shiftLeft_succ, Nat.log2_two_mul pos, ih]
    omega

/-- A significand has at most 53 binary digits, and all of them if it is shifted. -/
theorem log2_significandOfBits (bits : Nat) :
    (significandOfBits bits).log2 ≤ storedDigits ∧
      (shiftOfBits bits ≠ 0 → (significandOfBits bits).log2 = storedDigits) := by
  have upper : significandOfBits bits < 2 ^ 53 := by
    simp only [significandOfBits, shiftOfBits, fieldStep]
    omega
  have log_le : (significandOfBits bits).log2 ≤ storedDigits := by
    by_cases h : significandOfBits bits = 0
    · rw [h]
      decide
    · have := (Nat.log2_lt h).2 upper
      simp only [storedDigits]
      omega
  refine ⟨log_le, fun hs => Nat.le_antisymm log_le ?_⟩
  have lower : 2 ^ 52 ≤ significandOfBits bits := by
    simp only [significandOfBits, shiftOfBits, fieldStep] at hs ⊢
    omega
  exact (Nat.le_log2 (by omega)).2 lower

/-- The shift of a double is how many more binary digits it has than are stored. -/
theorem log2_unitsOfBits (bits : Nat) :
    (unitsOfBits bits).log2 - storedDigits = shiftOfBits bits := by
  obtain ⟨small, full⟩ := log2_significandOfBits bits
  by_cases hs : shiftOfBits bits = 0
  · rw [unitsOfBits, hs, Nat.shiftLeft_zero]
    omega
  · have pos : significandOfBits bits ≠ 0 := fun h => by
      have := full hs
      rw [h] at this
      exact absurd this (by decide)
    rw [unitsOfBits, log2_shiftLeft_eq pos, full hs]
    omega

/-- A finite magnitude is the one nearest to its own value. -/
theorem nearestBits_unitsOfBits {bits : Nat} (h : bits < infinityBits) :
    nearestBits (unitsOfBits bits) (1 <<< unitPower) = bits := by
  have one_pos : 0 < 1 <<< unitPower := shiftLeft_pos Nat.one_pos _
  have den_pos : 0 < (1 <<< unitPower) <<< shiftOfBits bits := shiftLeft_pos one_pos _
  have whole : unitsOfBits bits <<< unitPower = unitsOfBits bits * (1 <<< unitPower) := by
    rw [Nat.shiftLeft_eq, Nat.shiftLeft_eq 1, Nat.one_mul]
  have round_eq : roundDiv (unitsOfBits bits <<< unitPower)
      ((1 <<< unitPower) <<< shiftOfBits bits) = significandOfBits bits := by
    have : unitsOfBits bits <<< unitPower =
        significandOfBits bits * ((1 <<< unitPower) <<< shiftOfBits bits) := by
      rw [whole, unitsOfBits, Nat.shiftLeft_eq _ (shiftOfBits bits),
        Nat.shiftLeft_eq _ (shiftOfBits bits), Nat.mul_assoc,
        Nat.mul_comm (2 ^ shiftOfBits bits)]
    rw [this, roundDiv_mul_left den_pos]
  have shift_eq : (unitsOfBits bits <<< unitPower / 1 <<< unitPower).log2 - storedDigits =
      shiftOfBits bits := by
    rw [whole, Nat.mul_div_cancel _ one_pos, log2_unitsOfBits]
  unfold nearestBits
  dsimp only
  rw [shift_eq, round_eq]
  simp only [significandOfBits, shiftOfBits, fieldStep, infinityBits] at h ⊢
  omega

end ChartParsing.Binary64
