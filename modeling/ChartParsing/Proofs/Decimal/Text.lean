import ChartParsing.Decimal.Layout
import ChartParsing.Decimal.Numeral
import ChartParsing.Proofs.Scanning
import Mathlib

/-!
# Positional texts of decimals

A decimal written positionally is read as a decimal for the same double.  With a fraction it is even
the same decimal; a whole number is read with its zeros among the digits.

* `toBits_whole`: a power of ten may be moved into the digits.
* `mem_positional`: a positional text has digits and at most one point.
* `read?_positional`: **reading undoes writing**, as far as the double is concerned.
-/

namespace ChartParsing.Decimal

/-! ## Digits -/

theorem isDigit_of_mem_digitChars {d : Decimal} {c : Char} (h : c ∈ d.digitChars) :
    c.isDigit = true :=
  Nat.isDigit_of_mem_toDigits (by decide) (by decide) h

theorem digitsValue_digitChars (d : Decimal) : digitsValue d.digitChars = d.digits :=
  Nat.ofDigitChars_ten_toDigits

theorem digitsValue_append_zeros (s : List Char) (k : Nat) :
    digitsValue (s ++ List.replicate k '0') = 10 ^ k * digitsValue s := by
  show Nat.ofDigitChars 10 (s ++ List.replicate k '0') 0 = _
  rw [Nat.ofDigitChars_append, Nat.ofDigitChars_replicate_zero]
  rfl

theorem digitsValue_zeros_append (s : List Char) (k : Nat) :
    digitsValue (List.replicate k '0' ++ s) = digitsValue s := by
  show Nat.ofDigitChars 10 (List.replicate k '0' ++ s) 0 = _
  rw [Nat.ofDigitChars_append, Nat.ofDigitChars_replicate_zero, Nat.mul_zero]
  rfl

theorem toDigits_mul_pow_ten {n : Nat} (hn : 0 < n) (k : Nat) :
    Nat.toDigits 10 (n * 10 ^ k) = Nat.toDigits 10 n ++ List.replicate k '0' := by
  induction k with
  | zero => rw [Nat.pow_zero, Nat.mul_one, List.replicate_zero, List.append_nil]
  | succ k ih =>
    have hpos : 0 < n * 10 ^ k := Nat.mul_pos hn (Nat.pow_pos (by decide))
    have hstep : n * 10 ^ (k + 1) = 10 * (n * 10 ^ k) + 0 := by
      rw [Nat.pow_succ, Nat.add_zero, Nat.mul_comm 10, Nat.mul_assoc]
    rw [hstep, ← Nat.toDigits_append_toDigits (by decide) hpos (by decide), ih,
      List.replicate_succ', List.append_assoc]
    rfl

/-- **A power of ten may be moved into the digits.** -/
theorem toBits_whole {d : Decimal} (h : 0 ≤ d.exponent) :
    (⟨d.digits * 10 ^ d.exponent.natAbs, 0⟩ : Decimal).toBits = d.toBits := by
  rcases Nat.eq_zero_or_pos d.digits with hzero | hpos
  · rw [toBits, toBits, if_pos (.inl (by rw [hzero]; exact Nat.zero_mul _)), if_pos (.inl hzero)]
  · have hpower : (⟨d.digits * 10 ^ d.exponent.natAbs, 0⟩ : Decimal).leadingPower =
        d.leadingPower := by
      have hlength : 0 < (Nat.toDigits 10 d.digits).length := Nat.length_toDigits_pos
      simp only [leadingPower, digitChars, toDigits_mul_pow_ten hpos, List.length_append,
        List.length_replicate]
      omega
    have hne : d.digits ≠ 0 := Nat.ne_of_gt hpos
    have hne' : d.digits * 10 ^ d.exponent.natAbs ≠ 0 :=
      Nat.ne_of_gt (Nat.mul_pos hpos (Nat.pow_pos (by decide)))
    have hone : Nat.pow 10 (0 : Int).natAbs = 1 := rfl
    simp only [toBits, hpower, hne, hne', false_or, hone, Nat.mul_one, Int.lt_irrefl, if_false,
      if_neg (Int.not_lt.mpr h)]
    rfl

/-! ## Reading -/

theorem natural?_eq_some {s : List Char} (hne : s ≠ []) (h : ∀ c ∈ s, c.isDigit = true) :
    natural? s = some (digitsValue s) := by
  have hall : s.all Char.isDigit = true := List.all_eq_true.mpr h
  have hempty : s.isEmpty = false := by simpa using hne
  rw [natural?, hall, hempty]
  rfl

theorem mantissa?_digits {s : List Char} (hne : s ≠ []) (h : ∀ c ∈ s, c.isDigit = true) :
    mantissa? s = some ⟨digitsValue s, 0⟩ := by
  rw [mantissa?, dropWhile_all h, takeWhile_all h]
  simp only [natural?_eq_some hne h, Option.map_some]

theorem mantissa?_point {whole fraction : List Char} (hne : whole ≠ [])
    (hwhole : ∀ c ∈ whole, c.isDigit = true) (hfraction : ∀ c ∈ fraction, c.isDigit = true) :
    mantissa? (whole ++ '.' :: fraction) =
      some ⟨digitsValue (whole ++ fraction), -fraction.length⟩ := by
  have hstop : Stops Char.isDigit ('.' :: fraction) := .cons (by decide)
  have hall : ∀ c ∈ whole ++ fraction, c.isDigit = true := by
    intro c hc
    rcases List.mem_append.mp hc with hc | hc
    · exact hwhole c hc
    · exact hfraction c hc
  have hne' : whole ++ fraction ≠ [] := fun h => hne (List.append_eq_nil_iff.mp h).1
  rw [mantissa?, dropWhile_run hwhole hstop, takeWhile_run hwhole hstop]
  simp only [natural?_eq_some hne' hall, Option.map_some, if_true]

/-- A text of digits and points has no exponent. -/
theorem read?_eq_mantissa? {s : List Char} (h : ∀ c ∈ s, c.isDigit = true ∨ c = '.') :
    read? s = mantissa? s := by
  have hmark : ∀ c ∈ s, (!isExponentMark c) = true := by
    intro c hc
    rw [Bool.not_eq_true', isExponentMark, Bool.or_eq_false_iff, beq_eq_false_iff_ne,
      beq_eq_false_iff_ne]
    rcases h c hc with hdigit | rfl
    · constructor
      · rintro rfl
        exact absurd hdigit (by decide)
      · rintro rfl
        exact absurd hdigit (by decide)
    · decide
  rw [read?, takeWhile_all hmark, dropWhile_all hmark]
  exact Option.bind_fun_some (mantissa? s)

/-! ## Positional texts -/

/-- The digits of a decimal with a fraction, with zeros before them so that one stands before the
point. -/
def padded (d : Decimal) : List Char :=
  List.replicate (d.exponent.natAbs + 1 - d.digitChars.length) '0' ++ d.digitChars

theorem isDigit_of_mem_padded {d : Decimal} {c : Char} (h : c ∈ d.padded) : c.isDigit = true := by
  rcases List.mem_append.mp h with hzero | hdigit
  · rw [List.eq_of_mem_replicate hzero]
    decide
  · exact isDigit_of_mem_digitChars hdigit

theorem lt_length_padded (d : Decimal) : d.exponent.natAbs < d.padded.length := by
  rw [padded, List.length_append, List.length_replicate]
  omega

theorem toList_positional_whole {d : Decimal} (h : 0 ≤ d.exponent) :
    (d.positional "").toList = d.digitChars ++ List.replicate d.exponent.natAbs '0' := by
  rw [positional]
  simp only [if_pos h]
  rw [String.toList_append, String.toList_ofList, String.toList_empty, List.append_nil]

theorem toList_positional_fraction {d : Decimal} (h : d.exponent < 0) :
    (d.positional "").toList = d.padded.take (d.padded.length - d.exponent.natAbs) ++
      '.' :: d.padded.drop (d.padded.length - d.exponent.natAbs) := by
  rw [positional]
  simp only [if_neg (Int.not_le.mpr h)]
  rw [String.toList_ofList]
  rfl

/-- **A positional text has digits and at most one point.** -/
theorem mem_positional {d : Decimal} {c : Char} (h : c ∈ (d.positional "").toList) :
    c.isDigit = true ∨ c = '.' := by
  rcases Int.lt_or_le d.exponent 0 with hneg | hnonneg
  · rw [toList_positional_fraction hneg] at h
    rcases List.mem_append.mp h with hmem | hmem
    · exact .inl (isDigit_of_mem_padded (List.mem_of_mem_take hmem))
    · rcases List.mem_cons.mp hmem with rfl | hmem
      · exact .inr rfl
      · exact .inl (isDigit_of_mem_padded (List.mem_of_mem_drop hmem))
  · rw [toList_positional_whole hnonneg] at h
    rcases List.mem_append.mp h with hmem | hmem
    · exact .inl (isDigit_of_mem_digitChars hmem)
    · rw [List.eq_of_mem_replicate hmem]
      exact .inl (by decide)

theorem positional_ne_nil (d : Decimal) : (d.positional "").toList ≠ [] := by
  rcases Int.lt_or_le d.exponent 0 with hneg | hnonneg
  · rw [toList_positional_fraction hneg]
    simp
  · rw [toList_positional_whole hnonneg]
    intro h
    exact Nat.toDigits_ne_nil (List.append_eq_nil_iff.mp h).1

/-- A decimal with a fraction is read as it is. -/
theorem mantissa?_fraction {d : Decimal} (h : d.exponent < 0) :
    mantissa? (d.positional "").toList = some d := by
  have hlength := lt_length_padded d
  have htake : d.padded.take (d.padded.length - d.exponent.natAbs) ≠ [] := by
    apply List.ne_nil_of_length_pos
    rw [List.length_take]
    omega
  have hdrop :
      (d.padded.drop (d.padded.length - d.exponent.natAbs)).length = d.exponent.natAbs := by
    rw [List.length_drop]
    omega
  rw [toList_positional_fraction h, mantissa?_point htake
    (fun c hc => isDigit_of_mem_padded (List.mem_of_mem_take hc))
    (fun c hc => isDigit_of_mem_padded (List.mem_of_mem_drop hc)),
    List.take_append_drop, hdrop, padded, digitsValue_zeros_append, digitsValue_digitChars]
  have hexponent : -(d.exponent.natAbs : Int) = d.exponent := by omega
  rw [hexponent]

/-- **Reading undoes writing**, as far as the double is concerned. -/
theorem read?_positional (d : Decimal) :
    ∃ e, read? (d.positional "").toList = some e ∧ e.toBits = d.toBits := by
  rw [read?_eq_mantissa? fun c hc => mem_positional hc]
  rcases Int.lt_or_le d.exponent 0 with hneg | hnonneg
  · exact ⟨d, mantissa?_fraction hneg, rfl⟩
  · refine ⟨⟨d.digits * 10 ^ d.exponent.natAbs, 0⟩, ?_, toBits_whole hnonneg⟩
    have hdigits : ∀ c ∈ (d.positional "").toList, c.isDigit = true := by
      intro c hc
      rw [toList_positional_whole hnonneg] at hc
      rcases List.mem_append.mp hc with hmem | hmem
      · exact isDigit_of_mem_digitChars hmem
      · rw [List.eq_of_mem_replicate hmem]
        decide
    rw [mantissa?_digits (positional_ne_nil d) hdigits, toList_positional_whole hnonneg,
      digitsValue_append_zeros, digitsValue_digitChars, Nat.mul_comm]

end ChartParsing.Decimal
