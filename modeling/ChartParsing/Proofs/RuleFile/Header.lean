import ChartParsing.Proofs.RuleFile.Language
import ChartParsing.RuleFile.Header

/-!
# The line of the start header

A start header stands on the first line of a text that is not blank.  It is looked for without
regard to lines, so its blanks may run over the end of the line, into the rules.  For the rules the
header is a comment, which ends with its line.  So if a text has rules, then a name that is found on
a later line stands where the first rule begins: it is the parent of that rule.

* `HeaderLine`: the line of a start header.
* `startHeader?_eq_some_iff`: what is found, on whatever lines.
* `headerLine_iff`: the line of a header is the line on which the text begins.
* `exists_parent_of_rules`: a text with rules begins with the parent of the first one.
* `headerLine_or_parent`: **a name that is found stands on the line of a header, or else it is the
  parent of the first rule**.
-/

namespace ChartParsing.RuleFile

open Text Item

/-- What a start header begins with. -/
def headerMark : List Char :=
  ['/', '/', '*', '*']

/-- What comes before the name in a start header. -/
def headerLabel : List Char :=
  ['s', 't', 'a', 'r', 't', ':']

/-- All characters of the text are blanks. -/
def Blanks (s : List Char) : Prop :=
  ∀ c ∈ s, isBlank c = true

/-- The text begins with the label of a start header and the name `x`, which is as long as it can
be.  Blanks may stand before the label and before the name. -/
def Labels (s x : List Char) : Prop :=
  ∃ gap gap' named tail, s = gap ++ (headerLabel ++ (gap' ++ named)) ∧ Blanks gap ∧ Blanks gap' ∧
    (Token.name x).Begins named tail

/-- After blanks, the text begins with the mark of a start header, and the rest of this line labels
the name `x`. -/
def HeaderLine (text x : String) : Prop :=
  ∃ lead rest, text.toList = lead ++ (headerMark ++ rest) ∧ Blanks lead ∧
    Labels (rest.takeWhile fun c => c != '\n') x.toList

/-! ## Blanks -/

theorem skipGap_blanks {gap : List Char} (h : Blanks gap) (s : List Char) :
    skipGap (gap ++ s) = skipGap s := by
  induction gap with
  | nil => rfl
  | cons c gap ih =>
    rw [List.cons_append, skipGap_blank (h c List.mem_cons_self)]
    exact ih fun d hd => h d (List.mem_cons_of_mem c hd)

theorem Blanks.eq_nil_of_stops {gap s : List Char} (h : Blanks gap)
    (hs : Stops isBlank (gap ++ s)) : gap = [] := by
  cases gap with
  | nil => rfl
  | cons c gap =>
    have hc := h c List.mem_cons_self
    rw [hs c rfl] at hc
    exact absurd hc (by decide)

theorem exists_blanks_of_dropWhile {s t : List Char} (h : s.dropWhile isBlank = t) :
    ∃ gap, s = gap ++ t ∧ Blanks gap := by
  refine ⟨s.takeWhile isBlank, ?_, ?_⟩
  · rw [← h, List.takeWhile_append_dropWhile]
  · exact List.all_eq_true.mp List.all_takeWhile

theorem after?_eq_some_iff {part s rest : List Char} (hpart : Stops isBlank (part ++ rest)) :
    after? part s = some rest ↔ ∃ gap, s = gap ++ (part ++ rest) ∧ Blanks gap := by
  rw [after?, List.isPrefixOf?_eq_some_iff_append_eq]
  constructor
  · intro h
    exact exists_blanks_of_dropWhile h.symm
  · rintro ⟨gap, rfl, hgap⟩
    exact (dropWhile_run hgap hpart).symm

/-- Blanks that go over the end of a comment's line are skipped with the comment. -/
theorem skipGap_over_line {line gap : List Char} (hline : '\n' ∉ line) (hgap : Blanks gap)
    (hmem : '\n' ∈ gap) (s : List Char) :
    skipGap ('/' :: '/' :: (line ++ (gap ++ s))) = skipGap s := by
  obtain ⟨a, b, rfl, ha⟩ := List.eq_append_cons_of_mem hmem
  have hend : Blanks ('\n' :: b) := fun c hc => hgap c (List.mem_append_right a hc)
  have hcomment : '\n' ∉ line ++ a := by
    intro h
    exact (List.mem_append.mp h).elim hline ha
  calc skipGap ('/' :: '/' :: (line ++ ((a ++ '\n' :: b) ++ s)))
      = skipGap ('/' :: '/' :: ((line ++ a) ++ ('\n' :: b ++ s))) := by
        simp only [List.append_assoc, List.cons_append]
    _ = skipGap ('\n' :: b ++ s) := skipGap_comment hcomment (.cons (by decide))
    _ = skipGap s := skipGap_blanks hend s

theorem Token.Begins.stops_isBlank {t : Token} {s rest : List Char} (h : t.Begins s rest) :
    Stops isBlank s := by
  obtain ⟨c, u, htext, hblank, -⟩ := h.wellFormed.head
  rw [h.eq_append, htext]
  exact .cons hblank

/-! ## What is found -/

theorem stops_headerMark (s : List Char) : Stops isBlank (headerMark ++ s) :=
  .cons (by decide)

theorem stops_headerLabel (s : List Char) : Stops isBlank (headerLabel ++ s) :=
  .cons (by decide)

theorem name?_eq_some_iff {s x rest : List Char} :
    name? s = some (x, rest) ↔ (Token.name x).Begins s rest := by
  constructor
  · exact begins_of_name?
  · rintro ⟨rfl, ⟨hne, hall⟩, hends⟩
    exact name?_run hne hall hends

/-- **A name is found just if it is labelled after a mark**, on whatever lines. -/
theorem startHeader?_eq_some_iff {text x : String} : startHeader? text = some x ↔
    ∃ lead rest, text.toList = lead ++ (headerMark ++ rest) ∧ Blanks lead ∧
      Labels rest x.toList := by
  constructor
  · intro h
    obtain ⟨a, ha, hlabelled⟩ := Option.bind_eq_some_iff.mp h
    obtain ⟨b, hb, hnamed⟩ := Option.bind_eq_some_iff.mp hlabelled
    obtain ⟨⟨name, tail⟩, hname, heq⟩ := Option.bind_eq_some_iff.mp hnamed
    obtain ⟨lead, htext, hlead⟩ := (after?_eq_some_iff (stops_headerMark a)).mp ha
    obtain ⟨gap, rfl, hgap⟩ := (after?_eq_some_iff (stops_headerLabel b)).mp hb
    obtain ⟨gap', hb', hgap'⟩ := exists_blanks_of_dropWhile (s := b) rfl
    have hx : x.toList = name := by
      rw [← Option.some.inj heq, String.toList_ofList]
    refine ⟨lead, _, htext, hlead, gap, gap', b.dropWhile isBlank, tail, ?_, hgap, hgap', ?_⟩
    · rw [← hb']
    · rw [hx]
      exact name?_eq_some_iff.mp hname
  · rintro ⟨lead, rest, htext, hlead, gap, gap', named, tail, rfl, hgap, hgap', hbegins⟩
    have hmark := (after?_eq_some_iff (stops_headerMark _)).mpr ⟨lead, htext, hlead⟩
    have hlabel := (after?_eq_some_iff (stops_headerLabel (gap' ++ named))).mpr ⟨gap, rfl, hgap⟩
    refine Option.bind_eq_some_iff.mpr ⟨_, hmark, Option.bind_eq_some_iff.mpr ⟨_, hlabel,
      Option.bind_eq_some_iff.mpr ⟨(x.toList, tail), ?_, ?_⟩⟩⟩
    · rw [dropWhile_run hgap' hbegins.stops_isBlank]
      exact name?_eq_some_iff.mpr hbegins
    · exact congrArg some String.ofList_toList

/-! ## Lines -/

theorem takeWhile_line_append {line : List Char} (h : '\n' ∉ line) (s : List Char) :
    (line ++ s).takeWhile (fun c => c != '\n') = line ++ s.takeWhile fun c => c != '\n' := by
  apply List.takeWhile_append_of_pos
  intro c hc
  rw [bne_iff_ne]
  rintro rfl
  exact h hc

/-- The line on which a text begins, after its first blanks. -/
def leadingLine (text : String) : String :=
  String.ofList ((text.toList.dropWhile isBlank).takeWhile fun c => c != '\n')

/-- **The line of a header is where the text begins**: a header is found on this line alone. -/
theorem headerLine_iff {text x : String} :
    HeaderLine text x ↔ startHeader? (leadingLine text) = some x := by
  rw [startHeader?_eq_some_iff, leadingLine, String.toList_ofList]
  constructor
  · rintro ⟨lead, rest, htext, hlead, hlabels⟩
    refine ⟨[], rest.takeWhile fun c => c != '\n', ?_, List.forall_mem_nil _, hlabels⟩
    rw [htext, dropWhile_run hlead (stops_headerMark rest), takeWhile_line_append (by decide)]
    rfl
  · rintro ⟨first, rest, hline, hfirst, hlabels⟩
    obtain ⟨lead, htext, hlead⟩ := exists_blanks_of_dropWhile (s := text.toList) rfl
    have hstart := stops_dropWhile isBlank text.toList
    generalize text.toList.dropWhile isBlank = s at hline htext hstart
    -- No blank comes first on the line, since it begins where the blanks of the text end.
    have hstop := hstart.takeWhile (q := fun c => c != '\n')
    rw [hline] at hstop
    obtain rfl := hfirst.eq_nil_of_stops hstop
    have hrest : ∀ c ∈ rest, (c != '\n') = true := by
      intro c hc
      have hmem : c ∈ s.takeWhile fun c => c != '\n' := by
        rw [hline]
        exact List.mem_append_right headerMark hc
      exact List.all_eq_true.mp List.all_takeWhile c hmem
    have hs : s = headerMark ++ (rest ++ s.dropWhile fun c => c != '\n') := by
      rw [← List.append_assoc, ← List.nil_append (headerMark ++ rest), ← hline,
        List.takeWhile_append_dropWhile]
    refine ⟨lead, rest ++ s.dropWhile fun c => c != '\n', htext.trans (congrArg _ hs), hlead, ?_⟩
    rwa [takeWhile_run hrest (stops_dropWhile _ s)]

instance (text x : String) : Decidable (HeaderLine text x) :=
  decidable_of_iff _ headerLine_iff.symm

theorem Labels.append {s t x : List Char} (h : Labels s x) (ht : Stops isNameChar t) :
    Labels (s ++ t) x := by
  obtain ⟨gap, gap', named, tail, rfl, hgap, hgap', rfl, hwell, hends⟩ := h
  refine ⟨gap, gap', (x ++ tail) ++ t, tail ++ t, ?_, hgap, hgap', ?_, hwell, hends.append ht⟩
  · simp only [List.append_assoc, Token.text]
  · simp only [List.append_assoc, Token.text]

/-- **The name on the line of a header is found.** -/
theorem startHeader?_of_headerLine {text x : String} (h : HeaderLine text x) :
    startHeader? text = some x := by
  obtain ⟨lead, rest, htext, hlead, hlabels⟩ := h
  have hend : Stops isNameChar (rest.dropWhile fun c => c != '\n') := by
    intro c hc
    have hnewline := stops_dropWhile (fun c => c != '\n') rest c hc
    rw [bne_eq_false_iff_eq] at hnewline
    rw [hnewline]
    decide
  refine startHeader?_eq_some_iff.mpr ⟨lead, rest, htext, hlead, ?_⟩
  have happend := hlabels.append hend
  rwa [List.takeWhile_append_dropWhile] at happend

/-- Where a name is labelled, it is labelled on this line, or else the blanks before the label or
before the name go over the end of the line.  Then the label or the name is what comes after the
comment. -/
theorem Labels.on_line_or_after {rest x : List Char} (h : Labels rest x) :
    Labels (rest.takeWhile fun c => c != '\n') x ∨
      (∃ s, skipGap (headerMark ++ rest) = headerLabel ++ s) ∨
      ∃ tail, (Token.name x).Begins (skipGap (headerMark ++ rest)) tail := by
  obtain ⟨gap, gap', named, tail, rfl, hgap, hgap', hbegins⟩ := h
  have hlabel : '\n' ∉ headerLabel := by decide
  by_cases hover : '\n' ∈ gap
  · refine .inr (.inl ⟨gap' ++ named, ?_⟩)
    have hskip : skipGap (headerMark ++ (gap ++ (headerLabel ++ (gap' ++ named)))) =
        skipGap (headerLabel ++ (gap' ++ named)) :=
      skipGap_over_line (show '\n' ∉ ['*', '*'] by decide) hgap hover _
    rw [hskip]
    exact skipGap_of_opens (.inl (by decide))
  by_cases hover' : '\n' ∈ gap'
  · refine .inr (.inr ⟨tail, ?_⟩)
    have hline : '\n' ∉ '*' :: '*' :: (gap ++ headerLabel) := by simp [hover, hlabel]
    have hskip := skipGap_over_line hline hgap' hover' named
    rw [List.cons_append, List.cons_append, List.append_assoc] at hskip
    have hnamed : skipGap (headerMark ++ (gap ++ (headerLabel ++ (gap' ++ named)))) = named :=
      hskip.trans hbegins.skipGap_eq
    rwa [hnamed]
  · left
    obtain ⟨rfl, hwell, hends⟩ := hbegins
    have hname : '\n' ∉ (Token.name x).text := fun hmem => absurd (hwell.2 _ hmem) (by decide)
    rw [takeWhile_line_append hover, takeWhile_line_append hlabel, takeWhile_line_append hover',
      takeWhile_line_append hname]
    exact ⟨gap, gap', _, _, rfl, hgap, hgap', rfl, hwell, Stops.takeWhile hends⟩

/-! ## The first rule -/

theorem eq_of_itemOfName {x y : String} (h : itemOfName x.toList = .nonterminal y) : y = x := by
  rw [itemOfName, String.ofList_toList] at h
  split at h
  · cases h
    rfl
  · cases h

theorem SpellsAlternatives.head {x : String} {ts : List Token} {rs : List Rule}
    (h : SpellsAlternatives x ts rs) : ∃ r more, rs = r :: more ∧ r.parent = x := by
  cases h with
  | last hlast =>
    cases hlast
    exact ⟨_, _, rfl, rfl⟩
  | more hfirst =>
    cases hfirst
    exact ⟨_, _, rfl, rfl⟩

/-- **A text with rules begins with the parent of the first one**, after any gap. -/
theorem exists_parent_of_rules {s : List Char} {rs : List Rule} (h : rules s = .ok rs)
    (hne : skipGap s ≠ []) :
    ∃ r more rest, rs = r :: more ∧ item (skipGap s) = .ok (.nonterminal r.parent, rest) := by
  obtain ⟨ts, rest, hscans, hgap, hspells⟩ := rules_eq_ok_iff.mp h
  cases hspells with
  | nil =>
    rw [scans_nil_iff.mp hscans] at hne
    exact absurd (gap_nil_iff.mp hgap) hne
  | cons hrule hmore =>
    obtain ⟨hitem, halternatives⟩ := hrule
    obtain ⟨m, hbegins, -⟩ := scans_cons_iff.mp hscans
    obtain ⟨r, others, rfl, rfl⟩ := halternatives.head
    exact ⟨r, _, m, rfl, item_eq_ok_iff.mpr ⟨_, hitem, hbegins⟩⟩

/-- **A name that is found stands on the line of a header, or else it is the parent of the first
rule.** -/
theorem headerLine_or_parent {text x : String} {rs : List Rule} (h : readRules text = .ok rs)
    (hfound : startHeader? text = some x) :
    HeaderLine text x ∨ ∃ r more, rs = r :: more ∧ r.parent = x := by
  obtain ⟨lead, rest, htext, hlead, hlabels⟩ := startHeader?_eq_some_iff.mp hfound
  have hgap : skipGap text.toList = skipGap (headerMark ++ rest) := by
    rw [htext, skipGap_blanks hlead]
  rcases hlabels.on_line_or_after with hline | ⟨s, hlabel⟩ | ⟨tail, hbegins⟩
  · exact .inl ⟨lead, rest, htext, hlead, hline⟩
  · -- The rules would begin with the word `start`, but a parent is no word.
    rw [← hgap] at hlabel
    obtain ⟨r, more, m, -, hparent⟩ := exists_parent_of_rules h (by rw [hlabel]; simp [headerLabel])
    have hword : item (headerLabel ++ s) = .ok (.word "start", ':' :: s) :=
      item_run (s := ['t', 'a', 'r', 't']) (List.all_eq_true.mp rfl) (.cons (by decide))
    rw [hlabel, hword] at hparent
    cases hparent
  · right
    rw [← hgap] at hbegins
    have hne : skipGap text.toList ≠ [] := by
      rw [hbegins.eq_append]
      exact List.append_ne_nil_of_left_ne_nil hbegins.wellFormed.1 tail
    obtain ⟨r, more, m, rfl, hparent⟩ := exists_parent_of_rules h hne
    have hname := item_eq_ok_iff.mpr ⟨_, isItem_itemOfName hbegins.wellFormed.1, hbegins⟩
    have hitem := (Prod.mk.inj (Except.ok.inj (hparent.symm.trans hname))).1
    exact ⟨r, more, rfl, eq_of_itemOfName hitem.symm⟩

end ChartParsing.RuleFile
