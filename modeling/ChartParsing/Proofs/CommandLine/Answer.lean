import ChartParsing.CommandLine.Run
import ChartParsing.Proofs.Charts
import ChartParsing.Proofs.Sentence
import ChartParsing.Proofs.Viterbi.Agreement

/-!
# What is printed for a sentence

A sentence has two charts, and if the start symbol derives it a best probability and a best tree.
These `Findings` depend on the words alone.  The options only choose which of them are printed, and
the verdict is always printed.  The verdict comes from recognition, the rest from the best parse; as
the two charts agree, an accepted sentence lacks nothing that the options ask for.

* `Findings.text`: the layout of an answer.
* `exists_findings`: every sentence whose charts have a size has findings.
* `answerWords_eq_text`: they are what is printed.
* `answer_of_findings`: both, for a sentence.
-/

namespace ChartParsing

namespace Grammar

variable {g : Grammar} {words : List String}

/-- Nothing derives the empty list of words. -/
theorem Derives.ne_nil {x : String} (h : g.Derives x words) : words ≠ [] := by
  cases h with
  | word _ => exact List.cons_ne_nil _ _
  | split _ hu _ _ _ => exact List.append_ne_nil_of_left_ne_nil hu _

/-- A sentence is accepted just when the start symbol derives it. -/
theorem accepts_iff_derives (h : g.Consistent) (hn : Table.Fits words.length) :
    ∃ accepted, g.accepts words = .ok accepted ∧
      (accepted = true ↔ g.Derives g.startName words) := by
  obtain ⟨accepted, haccepted, hiff⟩ := accepts_eq_ok h hn
  exact ⟨accepted, haccepted, hiff.trans ⟨And.right, fun hd => ⟨hd.ne_nil, hd⟩⟩⟩

/-! ## The charts have texts -/

theorem exists_recognition_text (h : g.Consistent) (hn : Table.Fits words.length) :
    ∃ r text, g.recognize words = .ok r ∧ r.render = .ok text := by
  obtain ⟨r, hr, hsize, hspans⟩ := recognize_names h hn
  have hnames : ∀ span : Span, span.Within r.size → ∃ names, r.namesAt span = .ok names := by
    rw [hsize]
    intro span hspan
    obtain ⟨-, names, -, -, hnames⟩ := hspans span hspan
    exact ⟨names, hnames⟩
  obtain ⟨text, htext⟩ := RecognitionChart.render_eq_ok hnames
  exact ⟨r, text, hr, htext⟩

end Grammar

namespace CommandLine

/-- The words of a sentence, in lower case if the option asks for it. -/
def sentenceWords (lowercase : Bool) (sentence : String) : List String :=
  tokenize (if lowercase then sentence.toLower else sentence)

/-- What is printed for a line: it is put in lower case if the option asks for it, and the sentence
is what lies between the blanks at its ends. -/
def answer (g : Grammar) (flags : Flags) (line : String) : Except Fault String :=
  answerSentence g flags (Text.trim (if flags.lowercase then line.toLower else line))

/-- An answer depends on the words of the line alone. -/
theorem answer_eq_answerWords (g : Grammar) (flags : Flags) (sentence : String) :
    answer g flags sentence = answerWords g flags (sentenceWords flags.lowercase sentence) := by
  rw [answer, answerSentence, tokenize_trim, sentenceWords]

/-- A part of an answer, if it is to be printed. -/
def part (shown : Bool) (text : String) : String :=
  if shown then text else ""

/-- What there is to say about a sentence. -/
structure Findings where
  /-- The text of the recognition chart. -/
  chart : String
  /-- The text of the Viterbi chart. -/
  viterbi : String
  /-- The best probability and the best tree, if the sentence has a derivation. -/
  best : Option (Float × Tree)

/-- What follows the verdict on an accepted sentence: the Viterbi chart, the best probability and
the best tree.  Scores are printed only if the rules have probabilities. -/
def detailsText (g : Grammar) (flags : Flags) (viterbi : String) (p : Float) (t : Tree) : String :=
  part (flags.chart && g.weighted) ("viterbi chart:\n" ++ viterbi ++ "\n") ++
    part g.weighted ("best probability: " ++ FloatStyle.plain.render p ++ "\n") ++
    part flags.tree (t.render ++ "\n")

/-- **The layout of an answer**: the recognition chart, if the option asks for charts, the verdict,
and the details of an accepted sentence. -/
def Findings.text (f : Findings) (g : Grammar) (flags : Flags) : String :=
  part flags.chart ("chart:\n" ++ f.chart ++ "\n") ++
    match f.best with
    | none => "not accepted: no derivation from " ++ g.startName ++ "\n"
    | some (p, t) => "accepted\n" ++ detailsText g flags f.viterbi p t

/-- The findings are those of the charts of the words, and there is a best derivation just when the
start symbol derives the words. -/
structure Findings.Of (g : Grammar) (words : List String) (f : Findings) : Prop where
  chart : ∃ r, g.recognize words = .ok r ∧ r.render = .ok f.chart
  viterbi : ∃ v, g.bestParse words = .ok v ∧ v.render = .ok f.viterbi ∧
    v.bestProbability = .ok (f.best.map Prod.fst) ∧
      ∀ p t, f.best = some (p, t) → v.bestTree = .ok t
  derives_iff : f.best.isSome = true ↔ g.Derives g.startName words

variable {g : Grammar} {words : List String} {flags : Flags} {f : Findings}

/-- **Every sentence whose charts have a size has findings.** -/
theorem exists_findings (h : g.Consistent) (hn : Table.Fits words.length) :
    ∃ f : Findings, f.Of g words := by
  obtain ⟨r, chart, hr, hchart⟩ := Grammar.exists_recognition_text h hn
  obtain ⟨v, hv, hcharts⟩ := Grammar.bestParse_eq_ok g hn
  obtain ⟨viterbi, hviterbi⟩ := hcharts.exists_text h
  obtain ⟨accepted, best, haccepted, hbest, hsome, htree, -⟩ := hcharts.answers_agree h hn
  obtain ⟨accepted', haccepted', hderives⟩ := Grammar.accepts_iff_derives h hn
  obtain rfl : accepted = accepted' := Except.ok.inj (haccepted.symm.trans haccepted')
  have hpair : ∃ pair : Option (Float × Tree), pair.map Prod.fst = best ∧
      ∀ p t, pair = some (p, t) → v.bestTree = .ok t := by
    cases best with
    | none => exact ⟨none, rfl, fun _ _ hp => absurd hp (by simp)⟩
    | some p =>
      obtain ⟨t, ht⟩ := htree (hsome.mpr rfl)
      refine ⟨some (p, t), rfl, ?_⟩
      rintro _ _ ⟨⟩
      exact ht
  obtain ⟨pair, rfl, hpair⟩ := hpair
  rw [Option.isSome_map] at hsome
  exact ⟨⟨chart, viterbi, pair⟩, ⟨r, hr, hchart⟩, ⟨v, hv, hviterbi, hbest, hpair⟩,
    hsome.symm.trans hderives⟩

/-! ## The parts of an answer -/

theorem chartBlock_eq {r : RecognitionChart} {text : String} (h : r.render = .ok text) :
    chartBlock flags r = .ok (part flags.chart ("chart:\n" ++ text ++ "\n")) := by
  rw [chartBlock, part]
  cases flags.chart with
  | false => rfl
  | true => rw [h]; rfl

theorem viterbiBlock_eq {v : ViterbiChart} {text : String} (h : v.render = .ok text) :
    viterbiBlock flags v =
      .ok (part (flags.chart && v.grammar.weighted) ("viterbi chart:\n" ++ text ++ "\n")) := by
  rw [viterbiBlock, part]
  cases flags.chart && v.grammar.weighted with
  | false => rfl
  | true => rw [h]; rfl

theorem probabilityLine_eq {v : ViterbiChart} {p : Float} (h : v.bestProbability = .ok (some p)) :
    probabilityLine v = .ok
      (part v.grammar.weighted ("best probability: " ++ FloatStyle.plain.render p ++ "\n")) := by
  rw [probabilityLine, part, h]
  cases v.grammar.weighted with
  | false => rfl
  | true => rfl

theorem treeBlock_eq {v : ViterbiChart} {t : Tree} (h : v.bestTree = .ok t) :
    treeBlock flags v = .ok (part flags.tree (t.render ++ "\n")) := by
  rw [treeBlock, part]
  cases flags.tree with
  | false => rfl
  | true => rw [h]; rfl

theorem details_eq {v : ViterbiChart} {viterbi : String} {p : Float} {t : Tree}
    (hv : g.bestParse words = .ok v) (hgrammar : v.grammar = g) (hviterbi : v.render = .ok viterbi)
    (hp : v.bestProbability = .ok (some p)) (ht : v.bestTree = .ok t) :
    details g flags words = .ok (detailsText g flags viterbi p t) := by
  rw [details]
  cases hshown : g.weighted || flags.tree with
  | false =>
    -- no probabilities and no tree: nothing follows the verdict
    obtain ⟨hweighted, htree⟩ := Bool.or_eq_false_iff.mp hshown
    simp [detailsText, part, hweighted, htree, pure, Except.pure]
  | true =>
    subst hgrammar
    exact bind_eq_ok.mpr ⟨v, hv, bind_eq_ok.mpr ⟨_, viterbiBlock_eq hviterbi,
      bind_eq_ok.mpr ⟨_, probabilityLine_eq hp, bind_eq_ok.mpr ⟨_, treeBlock_eq ht, rfl⟩⟩⟩⟩

/-- **The findings are what is printed.** -/
theorem answerWords_eq_text (h : g.Consistent) (hn : Table.Fits words.length)
    (hf : f.Of g words) (flags : Flags) : answerWords g flags words = .ok (f.text g flags) := by
  obtain ⟨r, hr, hchart⟩ := hf.chart
  obtain ⟨accepted, haccepts, hderives⟩ := Grammar.accepts_iff_derives h hn
  have haccepted : r.accepts = .ok accepted := by
    rwa [Grammar.accepts, hr] at haccepts
  have hiff : accepted = true ↔ f.best.isSome = true := hderives.trans hf.derives_iff.symm
  refine bind_eq_ok.mpr ⟨r, hr, bind_eq_ok.mpr ⟨_, chartBlock_eq hchart,
    bind_eq_ok.mpr ⟨accepted, haccepted, ?_⟩⟩⟩
  rw [Findings.text]
  cases hbest : f.best with
  | none =>
    have hfalse : accepted = false := by
      rw [← Bool.not_eq_true, hiff, hbest]
      decide
    rw [hfalse]
    rfl
  | some best =>
    obtain ⟨p, t⟩ := best
    obtain ⟨v, hv, hviterbi, hprobability, htree⟩ := hf.viterbi
    obtain ⟨v', hv', hcharts⟩ := Grammar.bestParse_eq_ok g hn
    obtain rfl : v = v' := Except.ok.inj (hv.symm.trans hv')
    rw [hbest] at hprobability
    rw [hiff.mpr (by rw [hbest]; rfl)]
    refine bind_eq_ok.mpr
      ⟨_, details_eq hv hcharts.grammar_eq hviterbi hprobability (htree p t hbest), ?_⟩
    rw [pure_eq_ok, verdict, if_pos rfl, String.append_assoc]

/-- **The options only choose what is printed.**  Every sentence whose charts have a size has
findings, which depend on its words alone: the text of each chart, and a best probability with a
best tree just when the start symbol derives the words.  With all options the sentence is answered
by the text that `Findings.text` lays out. -/
theorem answer_of_findings (h : g.Built) {lowercase : Bool} {sentence : String}
    (hn : Table.Fits (sentenceWords lowercase sentence).length) :
    ∃ f : Findings, f.Of g (sentenceWords lowercase sentence) ∧
      ∀ flags : Flags, flags.lowercase = lowercase →
        answer g flags sentence = .ok (f.text g flags) := by
  obtain ⟨f, hf⟩ := exists_findings h.consistent hn
  refine ⟨f, hf, ?_⟩
  rintro flags rfl
  rw [answer_eq_answerWords]
  exact answerWords_eq_text h.consistent hn hf flags

/-- The sentence `a a` is accepted by `S -> S S | a`, whatever is printed with the verdict. -/
theorem repeating_answer : Grammar.repeating.Built ∧
    Table.Fits (sentenceWords false "a a").length ∧
    ∃ f : Findings, f.best.isSome = true ∧
      answer Grammar.repeating ⟨none, false, true, false⟩ "a a" =
        .ok (f.text Grammar.repeating ⟨none, false, true, false⟩) ∧
      answer Grammar.repeating ⟨none, true, false, false⟩ "a a" =
        .ok (f.text Grammar.repeating ⟨none, true, false, false⟩) := by
  have hwords : sentenceWords false "a a" = ["a", "a"] := by cbv
  have hfits : Table.Fits (sentenceWords false "a a").length := by
    rw [hwords]
    decide
  obtain ⟨f, hf, hanswer⟩ := answer_of_findings Grammar.built_repeating hfits
  rw [hwords] at hf
  have hword : Grammar.repeating.Derives "S" ["a"] :=
    .word (p := some Grammar.half) (by simp [Grammar.rules_repeating])
  have hderives : Grammar.repeating.Derives "S" ["a", "a"] :=
    .split (p := some Grammar.half) (by simp [Grammar.rules_repeating]) (by simp) (by simp)
      hword hword
  exact ⟨Grammar.built_repeating, hfits, f, hf.derives_iff.mpr hderives,
    hanswer ⟨none, false, true, false⟩ rfl, hanswer ⟨none, true, false, false⟩ rfl⟩

end CommandLine

end ChartParsing
