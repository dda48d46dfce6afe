import ChartParsing.Proofs.Scanning
import ChartParsing.Sentence

/-!
# Words and the gaps between them

A text is a row of words with gaps between them: a word has no separator, a gap has nothing else.  A
gap between two words is not empty, so no word can be made longer, and there is one such row only.

* `wordRuns`, `filter_splitOnP`: the words are the longest runs of characters that are no
  separators.
* `wordRuns_gap`, `wordRuns_word`: a gap is skipped, a word ends where a gap begins.
* `Spaced`: a text as a row of words and gaps.
* `tokenize_eq_iff`: **the words of a text are those of its row**.
-/

namespace ChartParsing

/-! ## Runs -/

/-- Whether `c` belongs to a word. -/
def isWordChar (c : Char) : Bool :=
  !isSeparator c

/-- The longest runs of word characters. -/
def wordRuns : List Char → List (List Char)
  | [] => []
  | c :: s =>
    if isSeparator c then wordRuns s
    else (c :: s.takeWhile isWordChar) :: wordRuns (s.dropWhile isWordChar)
termination_by s => s.length
decreasing_by
  · simp
  · have := (List.dropWhile_suffix (l := s) isWordChar).length_le
    simp only [List.length_cons]
    omega

theorem isWordChar_eq_true_iff {c : Char} : isWordChar c = true ↔ isSeparator c = false := by
  rw [isWordChar, Bool.not_eq_true']

/-- A gap at the beginning is skipped. -/
theorem wordRuns_gap {gap : List Char} (h : ∀ c ∈ gap, isSeparator c = true) (s : List Char) :
    wordRuns (gap ++ s) = wordRuns s := by
  induction gap with
  | nil => rfl
  | cons c gap ih =>
    obtain ⟨hc, hgap⟩ := List.forall_mem_cons.mp h
    rw [List.cons_append, wordRuns, if_pos hc, ih hgap]

theorem wordRuns_of_separators {s : List Char} (h : ∀ c ∈ s, isSeparator c = true) :
    wordRuns s = [] := by
  have hgap := wordRuns_gap h []
  rwa [List.append_nil, wordRuns] at hgap

/-- A word at the beginning ends where no word goes on. -/
theorem wordRuns_word {word rest : List Char} (hne : word ≠ [])
    (h : ∀ c ∈ word, isSeparator c = false) (hrest : Stops isWordChar rest) :
    wordRuns (word ++ rest) = word :: wordRuns rest := by
  obtain ⟨c, s, rfl⟩ := List.exists_cons_of_ne_nil hne
  obtain ⟨hc, hs⟩ := List.forall_mem_cons.mp h
  have hrun : ∀ d ∈ s, isWordChar d = true := fun d hd => isWordChar_eq_true_iff.mpr (hs d hd)
  rw [List.cons_append, wordRuns, if_neg (by rw [hc]; decide), takeWhile_run hrun hrest,
    dropWhile_run hrun hrest]

theorem isSeparator_of_mem_takeWhile {s : List Char} :
    ∀ c ∈ s.takeWhile isWordChar, isSeparator c = false := fun c hc =>
  isWordChar_eq_true_iff.mp (List.all_eq_true.mp List.all_takeWhile c hc)

theorem stops_of_isSeparator {c : Char} (h : isSeparator c = true) (s : List Char) :
    Stops isWordChar (c :: s) :=
  .cons (by rw [isWordChar, h]; rfl)

/-- **The pieces that are not empty** are the longest runs. -/
theorem filter_splitOnP (s : List Char) :
    (s.splitOnP isSeparator).filter (fun w => !w.isEmpty) = wordRuns s := by
  -- a separator at the beginning cuts off an empty piece
  have hgap : ∀ {c : Char} (s : List Char), isSeparator c = true →
      ((c :: s).splitOnP isSeparator).filter (fun w => !w.isEmpty) =
        (s.splitOnP isSeparator).filter fun w => !w.isEmpty := by
    intro c s hc
    have hsplit := List.splitOnP_append_cons [] s hc
    rw [List.nil_append, List.splitOnP_nil] at hsplit
    rw [hsplit]
    rfl
  fun_induction wordRuns s with
  | case1 => rfl
  | case2 c s hc ih => rw [hgap s hc, ih]
  | case3 c s hc ih =>
    have hword : ∀ d ∈ c :: s.takeWhile isWordChar, isSeparator d = false :=
      List.forall_mem_cons.mpr ⟨by simpa using hc, isSeparator_of_mem_takeWhile⟩
    have htext : c :: s = (c :: s.takeWhile isWordChar) ++ s.dropWhile isWordChar := by
      rw [List.cons_append, List.takeWhile_append_dropWhile]
    rw [htext, ← ih]
    have hstops := stops_dropWhile isWordChar s
    cases hrest : s.dropWhile isWordChar with
    | nil =>
      rw [List.append_nil, List.splitOnP_eq_singleton hword]
      rfl
    | cons d rest =>
      rw [hrest] at hstops
      have hd : isSeparator d = true := by simpa [isWordChar] using hstops d rfl
      rw [List.splitOnP_append_cons _ rest hd, List.splitOnP_eq_singleton hword, hgap rest hd]
      rfl

/-- A gap at the end is skipped, too. -/
theorem wordRuns_append_gap {gap : List Char} (h : ∀ c ∈ gap, isSeparator c = true)
    (s : List Char) : wordRuns (s ++ gap) = wordRuns s := by
  cases gap with
  | nil => rw [List.append_nil]
  | cons c gap =>
    obtain ⟨hc, hgap⟩ := List.forall_mem_cons.mp h
    rw [← filter_splitOnP, List.splitOnP_append_cons s gap hc, List.filter_append,
      filter_splitOnP, filter_splitOnP, wordRuns_of_separators hgap, List.append_nil]

theorem tokenize_eq_wordRuns (text : String) :
    tokenize text = (wordRuns text.toList).map String.ofList := by
  rw [tokenize, filter_splitOnP]

theorem isSeparator_of_isBlank {c : Char} (h : Text.isBlank c = true) : isSeparator c = true := by
  rw [isSeparator, h, Bool.true_or]

/-- **Blanks at the ends of a text** belong to no word. -/
theorem tokenize_trim (text : String) : tokenize (Text.trim text) = tokenize text := by
  have hgap : ∀ s : List Char, ∀ c ∈ s.takeWhile Text.isBlank, isSeparator c = true :=
    fun s c hc => isSeparator_of_isBlank (List.all_eq_true.mp List.all_takeWhile c hc)
  have hstart : ∀ s : List Char, wordRuns (s.dropWhile Text.isBlank) = wordRuns s := by
    intro s
    rw [← wordRuns_gap (hgap s), List.takeWhile_append_dropWhile]
  have hend : ∀ s : List Char,
      wordRuns (s.reverse.dropWhile Text.isBlank).reverse = wordRuns s := by
    intro s
    have hlast : ∀ c ∈ (s.reverse.takeWhile Text.isBlank).reverse, isSeparator c = true :=
      fun c hc => hgap s.reverse c (List.mem_reverse.mp hc)
    rw [← wordRuns_append_gap hlast, ← List.reverse_append, List.takeWhile_append_dropWhile,
      List.reverse_reverse]
  rw [tokenize_eq_wordRuns, tokenize_eq_wordRuns, Text.trim, String.toList_ofList, hend, hstart]

namespace Sentence

/-! ## Rows of words and gaps -/

/-- The text is not empty and has no separator. -/
def IsWord (w : String) : Prop :=
  w ≠ "" ∧ ∀ c ∈ w.toList, isSeparator c = false

/-- The text has nothing but separators. -/
def IsGap (gap : String) : Prop :=
  ∀ c ∈ gap.toList, isSeparator c = true

/-- A gap, and then words, each with the gap after it. -/
def row (before : String) (parts : List (String × String)) : String :=
  before ++ String.join (parts.map fun p => p.1 ++ p.2)

/-- The parts are words and gaps, and only the last gap may be empty. -/
structure IsRow (before : String) (parts : List (String × String)) : Prop where
  before : IsGap before
  words : ∀ p ∈ parts, IsWord p.1
  gaps : ∀ p ∈ parts, IsGap p.2
  between : ∀ p ∈ parts.dropLast, p.2 ≠ ""

/-- The text is a row of these words. -/
def Spaced (text : String) (words : List String) : Prop :=
  ∃ before parts, IsRow before parts ∧ text = row before parts ∧ words = parts.map Prod.fst

variable {before : String} {p : String × String} {parts : List (String × String)}

theorem toList_row_nil : (row before []).toList = before.toList := by
  simp [row]

/-- Behind the first word begins a row again, with the gap after this word. -/
theorem toList_row_cons :
    (row before (p :: parts)).toList =
      before.toList ++ (p.1.toList ++ (row p.2 parts).toList) := by
  simp [row]

theorem isRow_nil (h : IsGap before) : IsRow before [] :=
  ⟨h, List.forall_mem_nil _, List.forall_mem_nil _, List.forall_mem_nil _⟩

theorem isRow_cons_iff :
    IsRow before (p :: parts) ↔
      IsGap before ∧ IsWord p.1 ∧ (p.2 = "" → parts = []) ∧ IsRow p.2 parts := by
  have hdropLast : parts ≠ [] → (p :: parts).dropLast = p :: parts.dropLast :=
    List.dropLast_cons_of_ne_nil
  constructor
  · rintro ⟨hbefore, hwords, hgaps, hbetween⟩
    obtain ⟨hword, hwords⟩ := List.forall_mem_cons.mp hwords
    obtain ⟨hgap, hgaps⟩ := List.forall_mem_cons.mp hgaps
    by_cases hlast : parts = []
    · subst hlast
      exact ⟨hbefore, hword, fun _ => rfl, isRow_nil hgap⟩
    · rw [hdropLast hlast] at hbetween
      obtain ⟨hne, hbetween⟩ := List.forall_mem_cons.mp hbetween
      exact ⟨hbefore, hword, fun h => absurd h hne, hgap, hwords, hgaps, hbetween⟩
  · rintro ⟨hbefore, hword, hempty, hgap, hwords, hgaps, hbetween⟩
    refine ⟨hbefore, List.forall_mem_cons.mpr ⟨hword, hwords⟩,
      List.forall_mem_cons.mpr ⟨hgap, hgaps⟩, ?_⟩
    by_cases hlast : parts = []
    · subst hlast
      exact List.forall_mem_nil _
    · rw [hdropLast hlast]
      exact List.forall_mem_cons.mpr ⟨mt hempty hlast, hbetween⟩

/-- After a word comes a separator, or nothing. -/
theorem IsRow.stops (h : IsRow before parts) (hempty : before = "" → parts = []) :
    Stops isWordChar (row before parts).toList := by
  cases hgap : before.toList with
  | nil =>
    rw [hempty (String.toList_eq_nil_iff.mp hgap), toList_row_nil, hgap]
    exact .nil
  | cons c gap =>
    have hc := h.before c (hgap ▸ List.mem_cons_self)
    rw [row, String.toList_append, hgap]
    exact stops_of_isSeparator hc _

/-- **The runs of a row are its words.** -/
theorem IsRow.wordRuns_eq (h : IsRow before parts) :
    wordRuns (row before parts).toList = parts.map fun p => p.1.toList := by
  induction parts generalizing before with
  | nil =>
    rw [toList_row_nil]
    exact wordRuns_of_separators h.before
  | cons p parts ih =>
    obtain ⟨hbefore, hword, hgap, hrest⟩ := isRow_cons_iff.mp h
    have hne : p.1.toList ≠ [] := mt String.toList_eq_nil_iff.mp hword.1
    rw [toList_row_cons, wordRuns_gap hbefore, wordRuns_word hne hword.2 (hrest.stops hgap),
      ih hrest, List.map_cons]

/-- **Every text is a row.** -/
theorem exists_row (s : List Char) :
    ∃ before parts, IsRow before parts ∧ s = (row before parts).toList := by
  fun_induction wordRuns s with
  | case1 => exact ⟨"", [], isRow_nil (List.forall_mem_nil _), rfl⟩
  | case2 c s hc ih =>
    obtain ⟨before, parts, hrow, hs⟩ := ih
    refine ⟨String.ofList (c :: before.toList), parts,
      ⟨?_, hrow.words, hrow.gaps, hrow.between⟩, ?_⟩
    · rw [IsGap, String.toList_ofList]
      exact List.forall_mem_cons.mpr ⟨hc, hrow.before⟩
    · rw [hs, row, row, String.toList_append, String.toList_append, String.toList_ofList]
      rfl
  | case3 c s hc ih =>
    obtain ⟨before, parts, hrow, hs⟩ := ih
    have hword : IsWord (String.ofList (c :: s.takeWhile isWordChar)) := by
      refine ⟨fun h => absurd (String.toList_eq_nil_iff.mpr h) (by simp), ?_⟩
      rw [String.toList_ofList, List.forall_mem_cons]
      exact ⟨by simpa using hc, isSeparator_of_mem_takeWhile⟩
    -- The run is as long as it can be, so no word begins right after it.
    have hempty : before = "" → parts = [] := by
      rintro rfl
      cases parts with
      | nil => rfl
      | cons q parts =>
        have hq := hrow.words q List.mem_cons_self
        obtain ⟨d, u, hcons⟩ := List.exists_cons_of_ne_nil (mt String.toList_eq_nil_iff.mp hq.1)
        have hstops := stops_dropWhile isWordChar s
        rw [hs, toList_row_cons, hcons] at hstops
        have hd := hq.2 d (hcons ▸ List.mem_cons_self)
        exact absurd ((hstops d rfl).symm.trans (isWordChar_eq_true_iff.mpr hd)) (by decide)
    refine ⟨"", (String.ofList (c :: s.takeWhile isWordChar), before) :: parts,
      isRow_cons_iff.mpr ⟨List.forall_mem_nil _, hword, hempty, hrow⟩, ?_⟩
    rw [toList_row_cons, ← hs]
    simp

theorem tokenize_row (h : IsRow before parts) :
    tokenize (row before parts) = parts.map Prod.fst := by
  rw [tokenize_eq_wordRuns, h.wordRuns_eq, List.map_map]
  exact List.map_congr_left fun p _ => String.ofList_toList

/-- **The words of a text are those of its row.** -/
theorem tokenize_eq_iff {text : String} {words : List String} :
    tokenize text = words ↔ Spaced text words := by
  constructor
  · rintro rfl
    obtain ⟨before, parts, hrow, htext⟩ := exists_row text.toList
    rw [String.toList_inj] at htext
    exact ⟨before, parts, hrow, htext, by rw [htext, tokenize_row hrow]⟩
  · rintro ⟨before, parts, hrow, rfl, rfl⟩
    exact tokenize_row hrow

theorem isWord_of_mem_tokenize {text w : String} (h : w ∈ tokenize text) : IsWord w := by
  obtain ⟨before, parts, hrow, -, hwords⟩ := tokenize_eq_iff.mp (rfl : tokenize text = _)
  rw [hwords] at h
  obtain ⟨p, hp, rfl⟩ := List.mem_map.mp h
  exact hrow.words p hp

/-- **No word goes over a separator.** -/
theorem tokenize_append_separator {c : Char} (hc : isSeparator c = true) (a b : String) :
    tokenize (a ++ String.singleton c ++ b) = tokenize a ++ tokenize b := by
  have htext : (a ++ String.singleton c ++ b).toList = a.toList ++ c :: b.toList := by simp
  rw [tokenize, htext, List.splitOnP_append_cons _ _ hc, List.filter_append, List.map_append]
  rfl

theorem tokenize_word {w : String} (h : IsWord w) : tokenize w = [w] := by
  have hgap : IsGap "" := List.forall_mem_nil _
  have hrow : IsRow "" [(w, "")] := isRow_cons_iff.mpr ⟨hgap, h, fun _ => rfl, isRow_nil hgap⟩
  refine tokenize_eq_iff.mpr ⟨"", [(w, "")], hrow, ?_, rfl⟩
  simp [row]

theorem tokenize_intercalate {words : List String} (h : ∀ w ∈ words, IsWord w) :
    tokenize (" ".intercalate words) = words := by
  induction words with
  | nil => rfl
  | cons w words ih =>
    obtain ⟨hw, hwords⟩ := List.forall_mem_cons.mp h
    cases words with
    | nil => rw [String.intercalate_singleton, tokenize_word hw]
    | cons v words =>
      have hspace : " " = String.singleton ' ' := rfl
      rw [String.intercalate_cons_cons, hspace, tokenize_append_separator (by decide),
        tokenize_word hw, ← hspace, ih hwords]
      rfl

/-- **The words of a text are its maximal runs without separators.**  Each word is one, and if a text
is a row of words and gaps, then its words are those of the row.  So the words before a separator
and those after it are all there are, and the words of a text, with spaces between them, are found
again. -/
theorem tokenize_exact :
    (∀ text, ∀ w ∈ tokenize text, IsWord w) ∧
      (∀ text words, tokenize text = words ↔ Spaced text words) ∧
      (∀ a b c, isSeparator c = true →
        tokenize (a ++ String.singleton c ++ b) = tokenize a ++ tokenize b) ∧
      ∀ text, tokenize (" ".intercalate (tokenize text)) = tokenize text :=
  ⟨fun _ _ hw => isWord_of_mem_tokenize hw, fun _ _ => tokenize_eq_iff,
    fun a b _ hc => tokenize_append_separator hc a b,
    fun _ => tokenize_intercalate fun _ hw => isWord_of_mem_tokenize hw⟩

/-- Quotation marks that are not of ASCII belong to a word. -/
theorem tokenize_quoted :
    Spaced "don't «stop»..." ["don", "t", "«stop»"] ∧
      tokenize "don't «stop»..." = ["don", "t", "«stop»"] ∧
      (∀ w ∈ tokenize "don't «stop»...", IsWord w) ∧ isSeparator '-' = true ∧
      tokenize "go-don't «stop»..." = tokenize "go" ++ ["don", "t", "«stop»"] := by
  obtain ⟨hwords, hspaced, happend, -⟩ := tokenize_exact
  have hword : ∀ w : String, w ≠ "" → w.toList.all isWordChar = true → IsWord w := fun w hne h =>
    ⟨hne, fun c hc => isWordChar_eq_true_iff.mp (List.all_eq_true.mp h c hc)⟩
  have hgap : ∀ gap : String, gap.toList.all isSeparator = true → IsGap gap := fun gap h =>
    List.all_eq_true.mp h
  have hlast : IsRow " " [("«stop»", "...")] := isRow_cons_iff.mpr
    ⟨hgap _ (by decide), hword _ (by decide) (by decide), fun _ => rfl,
      isRow_nil (hgap _ (by decide))⟩
  have hrow : IsRow "" [("don", "'"), ("t", " "), ("«stop»", "...")] := isRow_cons_iff.mpr
    ⟨hgap _ (by decide), hword _ (by decide) (by decide), by decide, isRow_cons_iff.mpr
      ⟨hgap _ (by decide), hword _ (by decide) (by decide), by decide, hlast⟩⟩
  have htext : Spaced "don't «stop»..." ["don", "t", "«stop»"] := ⟨_, _, hrow, by decide, rfl⟩
  have hquoted := (hspaced _ _).mpr htext
  have hsplit := happend "go" "don't «stop»..." '-' (by decide)
  rw [hquoted] at hsplit
  exact ⟨htext, hquoted, hwords _, by decide, hsplit⟩

end Sentence

end ChartParsing
