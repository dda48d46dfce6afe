import ChartParsing.Proofs.Scanning
import ChartParsing.RuleFile.Lexeme

/-!
# Numerals in a rule file

A numeral has digits and points and perhaps an exponent.  A run of them is read as one numeral, up
to a character with which no numeral goes on.

* `isNumeral_of_numeral?`, `numeral?_run`: `numeral?` finds the numerals, and only them.
-/

namespace ChartParsing.RuleFile

/-- The exponent of a numeral: a mark, perhaps a sign, and digits. -/
def IsExponent (s : List Char) : Prop :=
  ∃ c power digits, s = c :: (power ++ digits) ∧ Decimal.isExponentMark c = true ∧
    (power = [] ∨ power = ['+'] ∨ power = ['-']) ∧ digits ≠ [] ∧ ∀ d ∈ digits, d.isDigit = true

/-- A numeral as a rule file has it: digits and points, perhaps with an exponent.  Whether it writes
a number is another matter. -/
def IsNumeral (s : List Char) : Prop :=
  ∃ mantissa power, s = mantissa ++ power ∧ mantissa ≠ [] ∧
    (∀ c ∈ mantissa, isMantissaChar c = true) ∧ (power = [] ∨ IsExponent power)

/-- Whether a numeral may go on with `c`. -/
def isNumeralChar (c : Char) : Bool :=
  isMantissaChar c || Decimal.isExponentMark c

theorem isNumeralChar_of_isMantissaChar {c : Char} (h : isMantissaChar c = true) :
    isNumeralChar c = true := by
  rw [isNumeralChar, h, Bool.true_or]

theorem sign_cases (s : List Char) : sign s = [] ∨ sign s = ['+'] ∨ sign s = ['-'] := by
  cases s with
  | nil => exact .inl rfl
  | cons c s =>
    by_cases hplus : c = '+'
    · exact .inr (.inl (by simp [sign, hplus]))
    · by_cases hminus : c = '-'
      · exact .inr (.inr (by simp [sign, hminus]))
      · exact .inl (by simp [sign, hplus, hminus])

theorem sign_append {power digits : List Char}
    (hpower : power = [] ∨ power = ['+'] ∨ power = ['-']) (hne : digits ≠ [])
    (hdigits : ∀ d ∈ digits, d.isDigit = true) (rest : List Char) :
    sign (power ++ (digits ++ rest)) = power := by
  rcases hpower with rfl | rfl | rfl
  · cases digits with
    | nil => exact absurd rfl hne
    | cons d t =>
      have hd := hdigits d List.mem_cons_self
      have hplus : d ≠ '+' := by rintro rfl; exact absurd hd (by decide)
      have hminus : d ≠ '-' := by rintro rfl; exact absurd hd (by decide)
      simp [sign, hplus, hminus]
  · rfl
  · rfl

theorem exponentPart_cases (s : List Char) : exponentPart s = [] ∨ IsExponent (exponentPart s) := by
  cases s with
  | nil => exact .inl rfl
  | cons c s =>
    rw [exponentPart]
    split
    · rename_i h
      rw [Bool.and_eq_true, Bool.not_eq_true'] at h
      exact .inr ⟨c, _, _, rfl, h.1, sign_cases s, by simpa using h.2,
        List.all_eq_true.mp List.all_takeWhile⟩
    · exact .inl rfl

theorem exponentPart_run {power rest : List Char} (h : IsExponent power)
    (hrest : Stops Char.isDigit rest) : exponentPart (power ++ rest) = power := by
  obtain ⟨c, s, digits, rfl, hmark, hsign, hne, hdigits⟩ := h
  rw [List.cons_append, List.append_assoc, exponentPart]
  simp only [sign_append hsign hne hdigits, List.drop_left, takeWhile_run hdigits hrest, hmark]
  rw [if_pos (by simpa using hne)]

theorem exponentPart_of_stops {rest : List Char} (h : Stops Decimal.isExponentMark rest) :
    exponentPart rest = [] := by
  cases rest with
  | nil => rfl
  | cons c s =>
    have hc := h c rfl
    simp [exponentPart, hc]

theorem isNumeral_of_numeral? {s numeral rest : List Char} (h : numeral? s = some (numeral, rest)) :
    IsNumeral numeral := by
  simp only [numeral?, Option.ite_none_left_eq_some, Option.some.injEq, Prod.mk.injEq] at h
  obtain ⟨hne, rfl, -⟩ := h
  exact ⟨_, _, rfl, by simpa using hne, List.all_eq_true.mp List.all_takeWhile,
    exponentPart_cases _⟩

/-- **A numeral is read from its text**, up to a character with which no numeral goes on. -/
theorem numeral?_run {numeral rest : List Char} (h : IsNumeral numeral)
    (hrest : Stops isNumeralChar rest) : numeral? (numeral ++ rest) = some (numeral, rest) := by
  obtain ⟨mantissa, power, rfl, hne, hmantissa, hpower⟩ := h
  have hstop : Stops isMantissaChar rest := fun c hc => (Bool.or_eq_false_iff.mp (hrest c hc)).1
  have hmark : Stops Decimal.isExponentMark rest := fun c hc =>
    (Bool.or_eq_false_iff.mp (hrest c hc)).2
  have hdigit : Stops Char.isDigit rest := fun c hc => (Bool.or_eq_false_iff.mp (hstop c hc)).1
  have hread : Stops isMantissaChar (power ++ rest) ∧ exponentPart (power ++ rest) = power := by
    rcases hpower with rfl | hpower
    · exact ⟨hstop, exponentPart_of_stops hmark⟩
    · refine ⟨?_, exponentPart_run hpower hdigit⟩
      obtain ⟨c, s, digits, rfl, hc, -⟩ := hpower
      apply Stops.cons
      rw [Decimal.isExponentMark, Bool.or_eq_true, beq_iff_eq, beq_iff_eq] at hc
      rcases hc with rfl | rfl <;> decide
  rw [numeral?, List.append_assoc, takeWhile_run hmantissa hread.1, dropWhile_run hmantissa hread.1,
    hread.2, List.drop_left]
  exact if_neg (by simpa using hne)

end ChartParsing.RuleFile
