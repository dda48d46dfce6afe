import ChartParsing.Decimal.Numeral
import ChartParsing.Rule
import ChartParsing.Text.Blank
import ChartParsing.Text.Lines

/-!
# The parts of a rule file

A rule file is read from the left. Each function here recognises one kind of part at the beginning
of a text and gives it together with the rest.

* `skipGap`: blanks and comments; a comment runs from `//` to the end of its line.
* `name?`: the longest run of name characters.
* `quotedWord?`: a word between double quotes.
* `numeral?`: digits and points, possibly with an exponent.
-/

namespace ChartParsing.RuleFile

open Text

/-- The rest after the blanks and comments at the beginning. -/
def skipGap (s : List Char) : List Char :=
  match s with
  | [] => []
  | '/' :: '/' :: r => skipGap (r.dropWhile fun c => c != '\n')
  | c :: r => if isBlank c then skipGap r else c :: r
termination_by s.length
decreasing_by
  · have := (List.dropWhile_suffix (l := r) fun c => c != '\n').length_le
    simp only [List.length_cons]
    omega
  · simp

/-- The longest name at the beginning, if there is one. -/
def name? (s : List Char) : Option (List Char × List Char) :=
  let name := s.takeWhile Item.isNameChar
  if name.isEmpty then none else some (name, s.dropWhile Item.isNameChar)

/-- Whether `c` may stand in a quoted word. -/
def isQuotable (c : Char) : Bool :=
  c != '"' && c != '\n'

/-- The word between the double quotes at the beginning, which is not empty. -/
def quotedWord? : List Char → Option (List Char × List Char)
  | '"' :: s =>
    match s.takeWhile isQuotable, s.dropWhile isQuotable with
    | c :: word, '"' :: rest => some (c :: word, rest)
    | _, _ => none
  | _ => none

/-- Whether `c` may stand in a numeral before its exponent. -/
def isMantissaChar (c : Char) : Bool :=
  c.isDigit || c == '.'

/-- The sign at the beginning, if there is one. -/
def sign (s : List Char) : List Char :=
  (s.take 1).filter fun c => c == '+' || c == '-'

/-- The exponent at the beginning, or nothing: a mark, perhaps a sign, and digits. -/
def exponentPart : List Char → List Char
  | [] => []
  | c :: s =>
    let power := sign s
    let digits := (s.drop power.length).takeWhile Char.isDigit
    if Decimal.isExponentMark c && !digits.isEmpty then c :: (power ++ digits) else []

/-- The longest numeral at the beginning, if there is one. -/
def numeral? (s : List Char) : Option (List Char × List Char) :=
  let mantissa := s.takeWhile isMantissaChar
  let rest := s.dropWhile isMantissaChar
  let power := exponentPart rest
  if mantissa.isEmpty then none else some (mantissa ++ power, rest.drop power.length)

/-- How much of the text an error message shows. -/
def excerptLength : Nat := 40

/-- The beginning of the text for an error message, at most up to the end of the line. -/
def excerpt (s : List Char) : String :=
  String.ofList ((firstLine s).take excerptLength)

/-! ## What is left is the end of the text -/

/-- `rest` is an end of `s` and shorter than `s`. -/
def ProperSuffix (rest s : List Char) : Prop :=
  rest <:+ s ∧ rest.length < s.length

theorem ProperSuffix.cons (c : Char) (s : List Char) : ProperSuffix s (c :: s) :=
  ⟨List.suffix_cons c s, by simp⟩

theorem ProperSuffix.trans_suffix {a b c : List Char} (h : ProperSuffix a b) (h' : b <:+ c) :
    ProperSuffix a c :=
  ⟨h.1.trans h', Nat.lt_of_lt_of_le h.2 h'.length_le⟩

theorem ProperSuffix.of_suffix {a b c : List Char} (h : a <:+ b) (h' : ProperSuffix b c) :
    ProperSuffix a c :=
  ⟨h.trans h'.1, Nat.lt_of_le_of_lt h.length_le h'.2⟩

theorem ProperSuffix.of_append {part rest s : List Char} (h : part ++ rest = s) (hp : part ≠ []) :
    ProperSuffix rest s := by
  subst h
  refine ⟨List.suffix_append part rest, ?_⟩
  have := List.length_pos_iff.2 hp
  simp only [List.length_append]
  omega

theorem skipGap_suffix (s : List Char) : skipGap s <:+ s := by
  fun_induction skipGap s with
  | case1 => exact List.suffix_refl _
  | case2 r ih =>
    exact ih.trans ((List.dropWhile_suffix _).trans
      ((List.suffix_cons _ _).trans (List.suffix_cons _ _)))
  | case3 c r _ _ ih => exact ih.trans (List.suffix_cons _ _)
  | case4 => exact List.suffix_refl _

/-- A name and its rest make up the text. -/
theorem append_of_name? {s name rest : List Char} (h : name? s = some (name, rest)) :
    name ++ rest = s ∧ name ≠ [] := by
  simp only [name?, Option.ite_none_left_eq_some, Option.some.injEq, Prod.mk.injEq] at h
  obtain ⟨hne, rfl, rfl⟩ := h
  exact ⟨List.takeWhile_append_dropWhile, by simpa using hne⟩

/-- A quoted word, its quotes and its rest make up the text. -/
theorem append_of_quotedWord? {s word rest : List Char} (h : quotedWord? s = some (word, rest)) :
    '"' :: (word ++ '"' :: rest) = s ∧ word ≠ [] := by
  unfold quotedWord? at h
  split at h
  · rename_i t
    split at h
    · rename_i c w r hw hr
      simp only [Option.some.injEq, Prod.mk.injEq] at h
      obtain ⟨rfl, rfl⟩ := h
      refine ⟨?_, by simp⟩
      rw [← hw, ← hr, List.takeWhile_append_dropWhile]
    · exact absurd h (by simp)
  · exact absurd h (by simp)

theorem sign_eq_take (s : List Char) : sign s = s.take (sign s).length := by
  cases s with
  | nil => rfl
  | cons c s =>
    by_cases h : (c == '+' || c == '-') = true <;> simp [sign, h]

theorem takeWhile_append_drop (p : Char → Bool) (s : List Char) :
    s.takeWhile p ++ s.drop (s.takeWhile p).length = s := by
  induction s with
  | nil => rfl
  | cons c s ih => by_cases h : p c = true <;> simp [h, ih]

theorem exponentPart_append (s : List Char) :
    exponentPart s ++ s.drop (exponentPart s).length = s := by
  cases s with
  | nil => rfl
  | cons c s =>
    simp only [exponentPart]
    split
    · have hs : sign s ++ s.drop (sign s).length = s := by
        conv => lhs; lhs; rw [sign_eq_take]
        exact List.take_append_drop _ _
      simp only [List.length_cons, List.length_append, List.drop_succ_cons, List.cons_append,
        List.append_assoc, ← List.drop_drop]
      rw [takeWhile_append_drop, hs]
    · rfl

/-- A numeral and its rest make up the text. -/
theorem append_of_numeral? {s numeral rest : List Char} (h : numeral? s = some (numeral, rest)) :
    numeral ++ rest = s ∧ numeral ≠ [] := by
  simp only [numeral?, Option.ite_none_left_eq_some, Option.some.injEq, Prod.mk.injEq] at h
  obtain ⟨hne, rfl, rfl⟩ := h
  refine ⟨?_, fun h => hne (by simp [List.append_eq_nil_iff.1 h])⟩
  rw [List.append_assoc, exponentPart_append, List.takeWhile_append_dropWhile]

end ChartParsing.RuleFile
