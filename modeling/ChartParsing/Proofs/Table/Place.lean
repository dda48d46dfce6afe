import ChartParsing.Table.Basic
import Mathlib.Algebra.Group.Nat.Even
import Mathlib.Tactic.Ring

/-!
# The places of a triangular table

Row `i` of a table for `n` words starts at `rowStart n i`, and the span `i..j` has the place
`rowStart n i + (j - i - 1)`.  Rows follow one another without gaps, so two spans never share a
place and each place is one of the cells.

* `slot_eq_rowStart_add`: the formula with the product and the halved product is this sum.
* `slot_lt_cellCount`, `slot_injective`: a place lies in the table and belongs to one span.
* `toNat_slot`, `toNat_cellCount`: in machine words nothing wraps around as long as the table
  `Fits`, so the formulas mean what they mean over the natural numbers.
-/

namespace ChartParsing

/-- The span is one of a sentence of `size` words. -/
def Span.Within (s : Span) (size : Nat) : Prop :=
  s.start < s.stop ∧ s.stop ≤ size

instance (s : Span) (size : Nat) : Decidable (s.Within size) :=
  inferInstanceAs (Decidable (_ ∧ _))

/-- A table for `n` words has a number of cells that machine words can count. -/
def Table.Fits (n : Nat) : Prop :=
  n * (n + 1) < 2 ^ 64

instance (n : Nat) : Decidable (Table.Fits n) :=
  inferInstanceAs (Decidable (_ < _))

/-- How many cells lie in the rows before row `i`. -/
def rowStart (n : Nat) : Nat → Nat
  | 0 => 0
  | i + 1 => rowStart n i + (n - i)

/-! ## Places as numbers -/

theorem triangle_succ (i : Nat) : (i + 1) * i / 2 = i * (i - 1) / 2 + i := by
  cases i with
  | zero => rfl
  | succ k =>
    have h : (k + 1 + 1) * (k + 1) = (k + 1) * k + (k + 1) * 2 := by ring
    rw [h, Nat.add_mul_div_right _ _ (by decide)]
    rfl

/-- The rows before row `i` have `n` cells each but for a triangle that is cut off. -/
theorem rowStart_add_triangle {n : Nat} :
    ∀ {i : Nat}, i ≤ n → rowStart n i + i * (i - 1) / 2 = i * n := by
  intro i
  induction i with
  | zero => intro _; simp [rowStart]
  | succ i ih =>
    intro h
    have hi := ih (by omega)
    have ht : (i + 1) * (i + 1 - 1) / 2 = i * (i - 1) / 2 + i := triangle_succ i
    have hm : (i + 1) * n = i * n + n := by ring
    rw [rowStart, ht, hm]
    omega

theorem half_mul_pred_le {n i : Nat} (hi : i ≤ n) : i * (i - 1) / 2 ≤ i * n := by
  have := rowStart_add_triangle hi
  omega

theorem slot_eq_rowStart_add {n i j : Nat} (hi : i ≤ n) :
    slot n i j = rowStart n i + (j - i - 1) := by
  have h := rowStart_add_triangle hi
  have hmax : max i 1 - 1 = i - 1 := by omega
  rw [slot, hmax]
  omega

theorem rowStart_mono {n : Nat} {i k : Nat} (h : i ≤ k) : rowStart n i ≤ rowStart n k := by
  induction h with
  | refl => exact Nat.le_refl _
  | step _ ih => exact Nat.le_trans ih (Nat.le_add_right _ _)

/-- All rows together have all cells. -/
theorem rowStart_self (n : Nat) : rowStart n n = cellCount n := by
  have h := rowStart_add_triangle (Nat.le_refl n)
  have htwice : 2 * (n * (n - 1) / 2) = n * (n - 1) :=
    Nat.two_mul_div_two_of_even (Nat.even_mul_pred_self n)
  have hsquare : n * (n - 1) + n = n * n := by
    cases n with
    | zero => rfl
    | succ k => rw [Nat.add_sub_cancel]; ring
  rw [cellCount, Nat.mul_comm, triangle_succ]
  omega

theorem slot_lt_cellCount {n i j : Nat} (hij : i < j) (hj : j ≤ n) :
    slot n i j < cellCount n := by
  have hstep : rowStart n i + (n - i) = rowStart n (i + 1) := rfl
  have hmono : rowStart n (i + 1) ≤ rowStart n n := rowStart_mono (by omega)
  rw [slot_eq_rowStart_add (by omega), ← rowStart_self]
  omega

/-- **Two spans never share a place.** -/
theorem slot_injective {n i j k l : Nat} (hij : i < j) (hj : j ≤ n) (hkl : k < l) (hl : l ≤ n)
    (h : slot n i j = slot n k l) : i = k ∧ j = l := by
  rw [slot_eq_rowStart_add (by omega), slot_eq_rowStart_add (by omega)] at h
  have hi : rowStart n i + (n - i) = rowStart n (i + 1) := rfl
  have hk : rowStart n k + (n - k) = rowStart n (k + 1) := rfl
  rcases Nat.lt_trichotomy i k with hlt | heq | hgt
  · have := rowStart_mono (n := n) (show i + 1 ≤ k from hlt)
    omega
  · subst heq
    exact ⟨rfl, by omega⟩
  · have := rowStart_mono (n := n) (show k + 1 ≤ i from hgt)
    omega

/-! ## Places as machine words -/

theorem toNat_ofNat_of_lt {n : Nat} (h : n < 2 ^ 64) : (UInt64.ofNat n).toNat = n :=
  UInt64.toNat_ofNat_of_lt' h

namespace Table

theorem Fits.lt {n : Nat} (h : Fits n) : n < 2 ^ 64 := by
  have : n ≤ n * (n + 1) := Nat.le_mul_of_pos_right n (Nat.succ_pos n)
  exact Nat.lt_of_le_of_lt this h

/-- A shorter sentence has a chart if a longer one has. -/
theorem Fits.mono {m n : Nat} (h : Fits n) (hmn : m ≤ n) : Fits m :=
  Nat.lt_of_le_of_lt (Nat.mul_le_mul hmn (Nat.succ_le_succ hmn)) h

theorem Fits.succ_lt {n : Nat} (h : Fits n) : n + 1 < 2 ^ 64 := by
  cases n with
  | zero => decide
  | succ k =>
    have : k + 1 + 1 ≤ (k + 1) * (k + 1 + 1) := Nat.le_mul_of_pos_left _ (Nat.succ_pos k)
    exact Nat.lt_of_le_of_lt this h

theorem Fits.cellCount_lt {n : Nat} (h : Fits n) : cellCount n < 2 ^ 64 :=
  Nat.lt_of_le_of_lt (Nat.div_le_self _ _) h

theorem Fits.mul_lt {n i : Nat} (h : Fits n) (hi : i ≤ n) : i * n < 2 ^ 64 :=
  Nat.lt_of_le_of_lt (Nat.mul_le_mul hi (Nat.le_succ n)) h

theorem Fits.mul_pred_lt {n i : Nat} (h : Fits n) (hi : i ≤ n) : i * (i - 1) < 2 ^ 64 :=
  Nat.lt_of_le_of_lt (Nat.mul_le_mul_left i (by omega)) (h.mul_lt hi)

end Table

theorem toNat_cellCount {n : Nat} (h : Table.Fits n) :
    (cellCount (UInt64.ofNat n)).toNat = cellCount n := by
  have hsum : (UInt64.ofNat n + 1).toNat = n + 1 := by
    rw [UInt64.toNat_add, toNat_ofNat_of_lt h.lt]
    exact Nat.mod_eq_of_lt h.succ_lt
  have hprod : (UInt64.ofNat n * (UInt64.ofNat n + 1)).toNat = n * (n + 1) := by
    rw [UInt64.toNat_mul, hsum, toNat_ofNat_of_lt h.lt]
    exact Nat.mod_eq_of_lt h
  rw [cellCount, UInt64.toNat_div, hprod]
  rfl

theorem toNat_max_one {i : Nat} (h : i < 2 ^ 64) : (max (UInt64.ofNat i) 1).toNat = max i 1 := by
  have hle : UInt64.ofNat i ≤ 1 ↔ i ≤ 1 := by
    rw [UInt64.le_iff_toNat_le, toNat_ofNat_of_lt h]
    rfl
  have hmax : max (UInt64.ofNat i) 1 = if UInt64.ofNat i ≤ 1 then 1 else UInt64.ofNat i := rfl
  rw [hmax]
  split
  · rename_i hi
    rw [Nat.max_eq_right (hle.mp hi)]
    rfl
  · rename_i hi
    rw [toNat_ofNat_of_lt h, Nat.max_eq_left (by rw [hle] at hi; omega)]

/-- **Machine words give the place that the natural numbers give.** -/
theorem toNat_slot {n i j : Nat} (hn : Table.Fits n) (hij : i < j) (hj : j ≤ n) :
    (slot (UInt64.ofNat n) (UInt64.ofNat i) (UInt64.ofNat j)).toNat = slot n i j := by
  have hlt := hn.lt
  have hi : i < 2 ^ 64 := by omega
  have hle : i ≤ n := by omega
  have hslot := Nat.lt_trans (slot_lt_cellCount hij hj) hn.cellCount_lt
  have hmax : max i 1 - 1 = i - 1 := by omega
  have hone : (1 : UInt64).toNat = 1 := rfl
  -- the product of the row number with its predecessor
  have hpred : (max (UInt64.ofNat i) 1 - 1).toNat = i - 1 := by
    rw [UInt64.toNat_sub_of_le _ _ (by
      rw [UInt64.le_iff_toNat_le, toNat_max_one hi, hone]; omega), toNat_max_one hi, hone, hmax]
  have hhalf : (UInt64.ofNat i * (max (UInt64.ofNat i) 1 - 1) / 2).toNat = i * (i - 1) / 2 := by
    rw [UInt64.toNat_div, UInt64.toNat_mul, hpred, toNat_ofNat_of_lt hi,
      Nat.mod_eq_of_lt (hn.mul_pred_lt hle)]
    rfl
  have hrows : (UInt64.ofNat i * UInt64.ofNat n).toNat = i * n := by
    rw [UInt64.toNat_mul, toNat_ofNat_of_lt hi, toNat_ofNat_of_lt hlt,
      Nat.mod_eq_of_lt (hn.mul_lt hle)]
  have hdiff : (UInt64.ofNat i * UInt64.ofNat n -
      UInt64.ofNat i * (max (UInt64.ofNat i) 1 - 1) / 2).toNat = i * n - i * (i - 1) / 2 := by
    rw [UInt64.toNat_sub_of_le _ _ (by
      rw [UInt64.le_iff_toNat_le, hhalf, hrows]; exact half_mul_pred_le hle), hrows, hhalf]
  -- the distance within the row
  have hji : (UInt64.ofNat j - UInt64.ofNat i).toNat = j - i := by
    rw [UInt64.toNat_sub_of_le _ _ (by
      rw [UInt64.le_iff_toNat_le, toNat_ofNat_of_lt hi, toNat_ofNat_of_lt (by omega)]; omega),
      toNat_ofNat_of_lt hi, toNat_ofNat_of_lt (by omega)]
  have hcol : (UInt64.ofNat j - UInt64.ofNat i - 1).toNat = j - i - 1 := by
    rw [UInt64.toNat_sub_of_le _ _ (by
      rw [UInt64.le_iff_toNat_le, hji, hone]; omega), hji, hone]
  rw [slot, hmax] at hslot
  rw [slot, slot, UInt64.toNat_add, hdiff, hcol, hmax]
  exact Nat.mod_eq_of_lt hslot

end ChartParsing
