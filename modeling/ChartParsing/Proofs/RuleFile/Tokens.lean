import ChartParsing.Proofs.RuleFile.Accepted

/-!
# The tokens of a rule file

What a rule file is made of, said without a reader: tokens in their order, and gaps between them.
No token begins with a blank or with a comment, so the gap before a token ends in one place, and
`skipGap` finds it.

* `Gap s rest`: from `s` to `rest` there are only blanks and comments.
* `Token.Begins t s rest`: `s` is the text of `t` and then `rest`, and the token ends there.
* `begins_of_name?`, `begins_of_quotedWord?`, `begins_of_numeral?`: what is recognised is a token.
* `Scans s ts rest`: from `s` to `rest` there are the tokens `ts`, each after a gap.
* `scans_cons_iff`: the first token begins where `skipGap` stops.
-/

namespace ChartParsing.RuleFile

open Text Item

/-! ## Gaps -/

/-- From `s` to `rest` there are only blanks and comments.  A comment runs up to the end of its line
or of the text. -/
inductive Gap : List Char → List Char → Prop
  | empty (s : List Char) : Gap s s
  | blank {c : Char} {s rest : List Char} : isBlank c = true → Gap s rest → Gap (c :: s) rest
  | comment {line s rest : List Char} : '\n' ∉ line → Stops (fun c => c != '\n') s → Gap s rest →
      Gap ('/' :: '/' :: (line ++ s)) rest

theorem gap_skipGap (s : List Char) : Gap s (skipGap s) := by
  fun_induction skipGap s with
  | case1 => exact .empty []
  | case2 r ih =>
    have hline : '\n' ∉ r.takeWhile fun c => c != '\n' := by
      intro hmem
      exact absurd (List.all_eq_true.mp List.all_takeWhile _ hmem) (by decide)
    have hgap := Gap.comment hline (stops_dropWhile _ r) ih
    rwa [List.takeWhile_append_dropWhile] at hgap
  | case3 c r _ hc ih => exact .blank hc ih
  | case4 c r => exact .empty (c :: r)

theorem Gap.skipGap_eq {s rest : List Char} (h : Gap s rest) : skipGap s = skipGap rest := by
  induction h with
  | empty s => rfl
  | blank hc _ ih => rw [skipGap_blank hc, ih]
  | comment hline hend _ ih => rw [skipGap_comment hline hend, ih]

/-- A gap that reaches the end of the text is skipped to the end. -/
theorem gap_nil_iff {s : List Char} : Gap s [] ↔ skipGap s = [] := by
  constructor
  · intro h
    rw [h.skipGap_eq, skipGap]
  · intro h
    have hgap := gap_skipGap s
    rwa [h] at hgap

/-- After a numeral comes a gap or the next token, so it ends there. -/
theorem stops_of_skipGap {c : Char} {s rest : List Char} (h : skipGap s = c :: rest)
    (hc : isNumeralChar c = false) : Stops isNumeralChar s := by
  cases s with
  | nil => exact .nil
  | cons d t =>
    by_cases hd : isNumeralChar d = true
    · obtain ⟨hblank, hslash⟩ := not_isBlank_of_isNumeralChar hd
      rw [skipGap_of_stop hblank hslash] at h
      rw [(List.cons.inj h).1, hc] at hd
      exact absurd hd (by decide)
    · exact .cons (by simpa using hd)

/-! ## Tokens -/

/-- The smallest parts of a rule file. -/
inductive Token where
  | name (s : List Char)
  | quoted (s : List Char)
  | numeral (s : List Char)
  | arrow
  | bar
  | semicolon
  | opening
  | closing
deriving DecidableEq, Repr

namespace Token

/-- The text of a token. -/
def text : Token → List Char
  | name s => s
  | quoted s => '"' :: (s ++ ['"'])
  | numeral s => s
  | arrow => ['-', '>']
  | bar => ['|']
  | semicolon => [';']
  | opening => ['[']
  | closing => [']']

/-- The characters of a name, a quoted word and a numeral are as they have to be. -/
def WellFormed : Token → Prop
  | name s => s ≠ [] ∧ ∀ c ∈ s, isNameChar c = true
  | quoted s => s ≠ [] ∧ ∀ c ∈ s, isQuotable c = true
  | numeral s => IsNumeral s
  | _ => True

/-- A name is as long as it can be. -/
def EndsBefore : Token → List Char → Prop
  | name _, rest => Stops isNameChar rest
  | _, _ => True

/-- The text `s` begins with the token, and `rest` is left. -/
structure Begins (t : Token) (s rest : List Char) : Prop where
  eq_append : s = t.text ++ rest
  wellFormed : t.WellFormed
  endsBefore : t.EndsBefore rest

/-- The text of a token tells where a gap ends. -/
theorem WellFormed.head {t : Token} (h : t.WellFormed) :
    ∃ c s, t.text = c :: s ∧ isBlank c = false ∧ c ≠ '/' := by
  cases t with
  | name s =>
    obtain ⟨hne, hall⟩ := h
    obtain ⟨c, s, rfl⟩ := List.exists_cons_of_ne_nil hne
    have hopens : Opens c := .inl (hall c List.mem_cons_self)
    exact ⟨c, s, rfl, hopens.not_isBlank, hopens.ne (by decide)⟩
  | numeral s =>
    obtain ⟨mantissa, power, rfl, hne, hall, -⟩ := h
    obtain ⟨c, s, rfl⟩ := List.exists_cons_of_ne_nil hne
    have hc := isNumeralChar_of_isMantissaChar (hall c List.mem_cons_self)
    exact ⟨c, s ++ power, rfl, not_isBlank_of_isNumeralChar hc⟩
  | quoted | arrow | bar | semicolon | opening | closing =>
    refine ⟨_, _, rfl, ?_, ?_⟩
    · decide
    · decide

theorem Begins.skipGap_eq {t : Token} {s rest : List Char} (h : t.Begins s rest) :
    skipGap s = s := by
  obtain ⟨c, u, htext, hblank, hslash⟩ := h.wellFormed.head
  rw [h.eq_append, htext]
  exact skipGap_of_stop hblank hslash

end Token

/-! ## What the readers find -/

theorem begins_of_name? {s x rest : List Char} (h : name? s = some (x, rest)) :
    (Token.name x).Begins s rest := by
  refine ⟨(append_of_name? h).1.symm, mem_of_name? h, ?_⟩
  simp only [name?, Option.ite_none_left_eq_some, Option.some.injEq, Prod.mk.injEq] at h
  obtain ⟨-, -, rfl⟩ := h
  exact stops_dropWhile isNameChar s

theorem begins_of_quotedWord? {s w rest : List Char} (h : quotedWord? s = some (w, rest)) :
    (Token.quoted w).Begins s rest := by
  refine ⟨?_, mem_of_quotedWord? h, trivial⟩
  simpa [Token.text] using (append_of_quotedWord? h).1.symm

theorem begins_of_numeral? {s n rest : List Char} (h : numeral? s = some (n, rest)) :
    (Token.numeral n).Begins s rest :=
  ⟨(append_of_numeral? h).1.symm, isNumeral_of_numeral? h, trivial⟩

/-! ## Scanning -/

/-- From `s` to `rest` there are the tokens of a list, each after a gap. -/
inductive Scans : List Char → List Token → List Char → Prop
  | nil (s : List Char) : Scans s [] s
  | cons {s s' m rest : List Char} {t : Token} {ts : List Token} :
      Gap s s' → t.Begins s' m → Scans m ts rest → Scans s (t :: ts) rest

/-- **The first token begins where `skipGap` stops.** -/
theorem scans_cons_iff {s rest : List Char} {t : Token} {ts : List Token} :
    Scans s (t :: ts) rest ↔ ∃ m, t.Begins (skipGap s) m ∧ Scans m ts rest := by
  constructor
  · intro h
    cases h with
    | cons hgap hbegins hscans =>
      refine ⟨_, ?_, hscans⟩
      rwa [hgap.skipGap_eq, hbegins.skipGap_eq]
  · rintro ⟨m, hbegins, hscans⟩
    exact .cons (gap_skipGap s) hbegins hscans

theorem scans_nil_iff {s rest : List Char} : Scans s [] rest ↔ s = rest := by
  constructor
  · intro h
    cases h with
    | nil => rfl
  · rintro rfl
    exact .nil s

theorem scans_singleton_iff {s rest : List Char} {t : Token} :
    Scans s [t] rest ↔ t.Begins (skipGap s) rest := by
  rw [scans_cons_iff]
  simp only [scans_nil_iff, exists_eq_right]

theorem scans_append_iff {s rest : List Char} {ts us : List Token} :
    Scans s (ts ++ us) rest ↔ ∃ m, Scans s ts m ∧ Scans m us rest := by
  induction ts generalizing s with
  | nil => simp only [List.nil_append, scans_nil_iff, exists_eq_left']
  | cons t ts ih =>
    simp only [List.cons_append, scans_cons_iff, ih]
    constructor
    · rintro ⟨n, hbegins, m, hfirst, hlater⟩
      exact ⟨m, ⟨n, hbegins, hfirst⟩, hlater⟩
    · rintro ⟨m, ⟨n, hbegins, hfirst⟩, hlater⟩
      exact ⟨n, hbegins, m, hfirst, hlater⟩

end ChartParsing.RuleFile
