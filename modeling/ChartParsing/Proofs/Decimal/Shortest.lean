import ChartParsing.Decimal.Shortest
import ChartParsing.Proofs.Binary64.Rounding

/-!
# The shortest decimal reads back

The search for the shortest decimal of a double tests each decimal before it takes it, but for the
one on the finest grid.  That one is the double itself, as `10 ^ -1074` divides a unit.

* `toBits_gridPoint_zero`: the double on the finest grid is read back.
* `toBits_shortest`: **the shortest decimal of a positive finite double is read back**.
-/

namespace ChartParsing.Decimal

open Binary64

/-! ## The first digit -/

theorem lt_length_digitChars_iff {d : Decimal} {k : Nat} (hk : 0 < k) :
    k < d.digitChars.length ↔ 10 ^ k ≤ d.digits := by
  have hle : d.digitChars.length ≤ k ↔ d.digits < 10 ^ k :=
    Nat.length_toDigits_le_iff (by decide) hk
  omega

/-! ## The finest grid -/

theorem unitsOfBits_pos {b : Nat} (h : 0 < b) : 0 < unitsOfBits b := by
  refine shiftLeft_pos ?_ _
  simp only [significandOfBits, shiftOfBits, fieldStep]
  omega

/-- Every finite double is in the range that is read by a division. -/
theorem leadingPower_gridPoint_zero {b : Nat} (hpos : 0 < b) (hlt : b < infinityBits) :
    -330 ≤ (gridPoint (unitsOfBits b * pointsPerUnit) 0).leadingPower ∧
      (gridPoint (unitsOfBits b * pointsPerUnit) 0).leadingPower ≤ 310 := by
  have hlow : 10 ^ 744 ≤ unitsOfBits b * pointsPerUnit := by
    calc 10 ^ 744 ≤ 1 * pointsPerUnit := by decide +kernel
      _ ≤ unitsOfBits b * pointsPerUnit := Nat.mul_le_mul_right _ (unitsOfBits_pos hpos)
  have hhigh : unitsOfBits b * pointsPerUnit < 10 ^ 1385 := by
    calc unitsOfBits b * pointsPerUnit ≤ unitsOfBits (infinityBits - 1) * pointsPerUnit :=
          Nat.mul_le_mul_right _ (unitsOfBits_mono (Nat.le_sub_one_of_lt hlt) (by decide))
      _ < 10 ^ 1385 := by decide +kernel
  have hlength : 744 < (gridPoint (unitsOfBits b * pointsPerUnit) 0).digitChars.length :=
    (lt_length_digitChars_iff (by decide)).mpr hlow
  have hlength' : ¬ 1385 < (gridPoint (unitsOfBits b * pointsPerUnit) 0).digitChars.length := by
    rw [lt_length_digitChars_iff (by decide)]
    exact Nat.not_le_of_lt hhigh
  have hexponent : (gridPoint (unitsOfBits b * pointsPerUnit) 0).exponent = -1074 := rfl
  rw [leadingPower, hexponent]
  omega

/-- The finest grid divides a unit.  The power is kept a variable, so that it is not computed. -/
theorem pow_ten_eq_mul {k : Nat} (hk : k = unitPower) :
    Nat.pow 10 k = 1 <<< k * pointsPerUnit := by
  delta pointsPerUnit
  rw [← hk, Nat.shiftLeft_eq, Nat.one_mul]
  exact Nat.mul_pow 2 5 k

theorem toBits_gridPoint_zero {b : Nat} (hpos : 0 < b) (hlt : b < infinityBits) :
    (gridPoint (unitsOfBits b * pointsPerUnit) 0).toBits = b := by
  obtain ⟨hlow, hhigh⟩ := leadingPower_gridPoint_zero hpos hlt
  have hpoints : 0 < pointsPerUnit := by decide +kernel
  have hdigits : (gridPoint (unitsOfBits b * pointsPerUnit) 0).digits ≠ 0 :=
    Nat.ne_of_gt (Nat.mul_pos (unitsOfBits_pos hpos) hpoints)
  have hexponent : (gridPoint (unitsOfBits b * pointsPerUnit) 0).exponent = -1074 := rfl
  obtain ⟨k, hk⟩ : ∃ k, k = unitPower := ⟨_, rfl⟩
  have hnatAbs : (gridPoint (unitsOfBits b * pointsPerUnit) 0).exponent.natAbs = k := hk.symm
  rw [toBits, if_neg (by rw [not_or]; exact ⟨hdigits, Int.not_lt.mpr hlow⟩),
    if_neg (Int.not_lt.mpr hhigh), if_pos (by rw [hexponent]; decide), hnatAbs,
    pow_ten_eq_mul hk, hk]
  show nearestBits (unitsOfBits b * pointsPerUnit) (1 <<< unitPower * pointsPerUnit) = b
  rw [nearestBits_mul_right hpoints, nearestBits_unitsOfBits hlt]

/-! ## The search -/

theorem toBits_coarsest {bits scaled : Nat} (h : (gridPoint scaled 0).toBits = bits) :
    ∀ k, (coarsest bits scaled k).toBits = bits := by
  intro k
  induction k with
  | zero => exact h
  | succ k ih =>
    rw [coarsest]
    split
    · rename_i hbelow habove
      split
      · exact beq_iff_eq.mp hbelow
      · exact beq_iff_eq.mp habove
    · rename_i hbelow _
      exact beq_iff_eq.mp hbelow
    · rename_i _ habove
      exact beq_iff_eq.mp habove
    · exact ih

/-- **The shortest decimal of a positive finite double is read back.** -/
theorem toBits_shortest {b : Nat} (hpos : 0 < b) (hlt : b < infinityBits) :
    (shortest b).toBits = b :=
  toBits_coarsest (toBits_gridPoint_zero hpos hlt) _

end ChartParsing.Decimal
