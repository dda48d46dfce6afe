import ChartParsing.Proofs.RuleFile.Language

/-!
# Rule files one after the other

Whatever stands on the lines after a rule file, its tokens stay where they are: a name ends at the
end of its line, a quoted word is closed on it, and a comment goes no further.  The last gap of the
file goes on into the next line, and there a gap begins anew.

* `Gap.append_line`, `Scans.append_line`: gaps and tokens of a text with more lines after it.
* `rules_append_line`: the lines after a rule file are read as if they stood alone.
* `readRules_append_line`: **two rule files, one after the other, have the rules of both**, and what
  is wrong with the second one is what is wrong with the whole.
-/

namespace ChartParsing.RuleFile

open Text Item

variable {s rest : List Char}

/-! ## Gaps and tokens -/

theorem Gap.append_line (h : Gap s rest) (more : List Char) :
    Gap (s ++ '\n' :: more) (rest ++ '\n' :: more) := by
  induction h with
  | empty s => exact .empty _
  | blank hc _ ih => exact .blank hc ih
  | comment hline hend _ ih =>
    -- A comment that ran to the end of the text ends with the line now.
    have hgap := Gap.comment hline (hend.append (.cons (by decide))) ih
    rwa [← List.append_assoc] at hgap

theorem Token.Begins.append_line {t : Token} (h : t.Begins s rest) (more : List Char) :
    t.Begins (s ++ '\n' :: more) (rest ++ '\n' :: more) where
  eq_append := by rw [h.eq_append, List.append_assoc]
  wellFormed := h.wellFormed
  endsBefore := by
    cases t with
    | name x => exact Stops.append h.endsBefore (.cons (by decide))
    | quoted | numeral | arrow | bar | semicolon | opening | closing => trivial

/-- **Tokens stay where they are.** -/
theorem Scans.append_line {ts : List Token} (h : Scans s ts rest) (more : List Char) :
    Scans (s ++ '\n' :: more) ts (rest ++ '\n' :: more) := by
  induction h with
  | nil s => exact .nil _
  | cons hgap hbegins _ ih => exact .cons (hgap.append_line more) (hbegins.append_line more) ih

/-! ## Rules -/

/-- A gap at the beginning does not change how a text is read. -/
theorem rules_of_gap (h : Gap s rest) : rules s = rules rest := by
  have hskip := h.skipGap_eq
  cases hs : skipGap rest with
  | nil => rw [rules_nil (hskip.trans hs), rules_nil hs]
  | cons c r => rw [rules_of_skipGap (hskip.trans hs), rules_of_skipGap hs]

/-- **The lines after a rule file are read as if they stood alone.** -/
theorem rules_append_line {rs : List Rule} (h : rules s = .ok rs) (more : List Char) :
    rules (s ++ '\n' :: more) = (rules more).map (rs ++ ·) := by
  obtain ⟨ts, rest, hscans, hgap, hspells⟩ := rules_eq_ok_iff.mp h
  have hend : rules (rest ++ '\n' :: more) = rules more := by
    rw [rules_of_gap (hgap.append_line more)]
    exact rules_of_gap (.blank isBlank_newline (.empty more))
  rw [rules_of_spells hspells (hscans.append_line more), hend]

/-- **Two rule files, one after the other.**  If the first one has rules, then the whole has those of
both, in their order, or else the error of the second one. -/
theorem readRules_append_line {a b : String} {rs : List Rule} (h : readRules a = .ok rs) :
    (∀ qs, readRules b = .ok qs → readRules (a ++ "\n" ++ b) = .ok (rs ++ qs)) ∧
      ∀ e, readRules b = .error e → readRules (a ++ "\n" ++ b) = .error e := by
  have hwhole : readRules (a ++ "\n" ++ b) = (readRules b).map (rs ++ ·) := by
    have htext : (a ++ "\n" ++ b).toList = a.toList ++ '\n' :: b.toList := by simp
    rw [readRules, htext]
    exact rules_append_line h b.toList
  constructor
  · intro qs hb
    rw [hwhole, hb]
    rfl
  · intro e hb
    rw [hwhole, hb]
    rfl

/-- A comment at the end of the first file does not reach into the second one. -/
theorem readRules_append_line_commented :
    (readRules "S -> \"//\"; // the end" = .ok [Rule.lexical "S" "//" none] ∧
      readRules "T -> a;" = .ok [Rule.lexical "T" "a" none] ∧
      readRules "T -> [x" = .error (.expectedNumeral "x")) ∧
    readRules "S -> \"//\"; // the end\nT -> a;" =
      .ok [Rule.lexical "S" "//" none, Rule.lexical "T" "a" none] ∧
    readRules "S -> \"//\"; // the end\nT -> [x" = .error (.expectedNumeral "x") := by
  have hfirst : readRules "S -> \"//\"; // the end" = .ok [Rule.lexical "S" "//" none] := by
    with_unfolding_all rfl
  have hright : readRules "T -> a;" = .ok [Rule.lexical "T" "a" none] := by
    with_unfolding_all rfl
  have hwrong : readRules "T -> [x" = .error (.expectedNumeral "x") := by
    with_unfolding_all rfl
  exact ⟨⟨hfirst, hright, hwrong⟩, (readRules_append_line hfirst).1 _ hright,
    (readRules_append_line hfirst).2 _ hwrong⟩

end ChartParsing.RuleFile
