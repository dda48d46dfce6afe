import ChartParsing.Proofs.Grammar.Numbering
import ChartParsing.Proofs.Recognition
import ChartParsing.Proofs.Table.Writes
import ChartParsing.Proofs.Viterbi.Cells

/-!
# Charts are full and can be shown

Both charts are made without a fault, and each of their cells is written once.  A symbol gets into a
cell as the parent of a rule, so the grammar has a name for it; the symbols of a backpointer come
from other cells.  So nothing that shows a chart meets an unknown symbol or an empty cell.

* `id_lt_of_mem_byParts`, `id_lt_of_offered`: the symbols in the cells are those of the grammar.
* `RecognitionChart.render_eq_ok`, `ViterbiChart.render_eq_ok`: a chart has a text if each of its
  spans has a line.
* `charts_are_filled`: the two charts of a sentence.
-/

namespace ChartParsing

/-! ## Texts of charts -/

theorem Table.exists_mapM_spansOfLength {β : Type} {n : Nat} {f : Span → Except Fault β}
    (h : ∀ span : Span, span.Within n → ∃ b, f span = .ok b) (length : Nat) :
    ∃ bs, (spansOfLength n length).mapM f = .ok bs :=
  exists_mapM_eq_ok fun span hspan => h span (mem_spansOfLength_iff.mp hspan).1

namespace RecognitionChart

variable {c : RecognitionChart} {span : Span}

theorem namesAt_eq_ok {cell : SymbolSet} (hcell : c.cell span = .ok cell)
    (h : ∀ s ∈ cell, s.id < c.grammar.symbolCount) : ∃ names, c.namesAt span = .ok names := by
  obtain ⟨names, hnames⟩ := exists_mapM_eq_ok (f := c.grammar.name) fun s hs =>
    Grammar.exists_name_eq_ok (h s (Std.TreeSet.mem_toList.mp hs))
  exact ⟨_, bind_eq_ok.mpr ⟨cell, hcell, bind_eq_ok.mpr ⟨names, hnames, rfl⟩⟩⟩

theorem render_eq_ok
    (h : ∀ span : Span, span.Within c.size → ∃ names, c.namesAt span = .ok names) :
    ∃ text, c.render = .ok text := by
  have hline : ∀ span : Span, span.Within c.size → ∃ line, c.renderSpan span = .ok line := by
    intro span hspan
    obtain ⟨names, hnames⟩ := h span hspan
    exact ⟨_, bind_eq_ok.mpr ⟨names, hnames, rfl⟩⟩
  have hblock : ∀ length ∈ List.range' 1 c.size, ∃ block, c.renderLength length = .ok block := by
    intro length _
    obtain ⟨lines, hlines⟩ := Table.exists_mapM_spansOfLength hline length
    exact ⟨_, bind_eq_ok.mpr ⟨lines, hlines, rfl⟩⟩
  obtain ⟨blocks, hblocks⟩ := exists_mapM_eq_ok hblock
  exact ⟨_, bind_eq_ok.mpr ⟨blocks, hblocks, rfl⟩⟩

end RecognitionChart

/-- The symbols of the way in which an entry begins are symbols of the grammar. -/
def Backpointer.Known (g : Grammar) : Backpointer → Prop
  | lexical => True
  | binary _ left right => left.id < g.symbolCount ∧ right.id < g.symbolCount

namespace ViterbiChart

variable {c : ViterbiChart} {span : Span}

theorem mem_of_mem_toList {scores : Scores} {s : Symbol} {m : Float} (h : (s, m) ∈ scores.toList) :
    s ∈ scores :=
  Std.TreeMap.mem_iff_isSome_getElem?.mpr
    (Option.isSome_iff_exists.mpr ⟨m, Std.TreeMap.mem_toList_iff_getElem?_eq_some.mp h⟩)

theorem renderBackpointer_eq_ok {b : Option Backpointer}
    (hb : ∀ p, b = some p → p.Known c.grammar) : ∃ text, c.renderBackpointer b = .ok text := by
  cases b with
  | none => exact ⟨_, rfl⟩
  | some p =>
    cases p with
    | lexical => exact ⟨_, rfl⟩
    | binary k left right =>
      obtain ⟨hleft, hright⟩ := hb _ rfl
      obtain ⟨y, hy⟩ := Grammar.exists_name_eq_ok hleft
      obtain ⟨z, hz⟩ := Grammar.exists_name_eq_ok hright
      exact ⟨_, bind_eq_ok.mpr ⟨y, hy, bind_eq_ok.mpr ⟨z, hz, rfl⟩⟩⟩

theorem renderSpan_eq_ok {scores : Scores} {back : Backpointers} (hcell : c.cell span = .ok scores)
    (hback : c.back.get span = .ok back) (hsymbols : ∀ s ∈ scores, s.id < c.grammar.symbolCount)
    (hknown : ∀ (s : Symbol) (b : Backpointer), back[s]? = some b → b.Known c.grammar) :
    ∃ line, c.renderSpan span = .ok line := by
  have hentry : ∀ e ∈ scores.toList, ∃ text, c.renderEntry back e = .ok text := by
    rintro ⟨s, m⟩ hm
    obtain ⟨x, hx⟩ := Grammar.exists_name_eq_ok (hsymbols s (mem_of_mem_toList hm))
    obtain ⟨text, htext⟩ := renderBackpointer_eq_ok fun b hb => hknown s b hb
    exact ⟨_, bind_eq_ok.mpr ⟨x, hx, bind_eq_ok.mpr ⟨text, htext, rfl⟩⟩⟩
  obtain ⟨entries, hentries⟩ := exists_mapM_eq_ok hentry
  exact ⟨_, bind_eq_ok.mpr
    ⟨back, hback, bind_eq_ok.mpr ⟨scores, hcell, bind_eq_ok.mpr ⟨entries, hentries, rfl⟩⟩⟩⟩

theorem render_eq_ok
    (h : ∀ span : Span, span.Within c.size → ∃ line, c.renderSpan span = .ok line) :
    ∃ text, c.render = .ok text := by
  have hblock : ∀ length ∈ List.range' 1 c.size, ∃ block, c.renderLength length = .ok block := by
    intro length _
    obtain ⟨lines, hlines⟩ := Table.exists_mapM_spansOfLength h length
    exact ⟨_, bind_eq_ok.mpr ⟨lines, hlines, rfl⟩⟩
  obtain ⟨blocks, hblocks⟩ := exists_mapM_eq_ok hblock
  exact ⟨_, bind_eq_ok.mpr ⟨blocks, hblocks, rfl⟩⟩

end ViterbiChart

namespace Grammar

variable {g : Grammar} {words : List String}

/-! ## Symbols in cells -/

theorem id_lt_of_mem_byParts (h : g.Consistent) {s : Symbol} {span : Span}
    (hspan : span.Within words.length)
    (hs : s ∈ Table.byParts g.symbolsOfWord g.symbolsOfSplits words span) :
    s.id < g.symbolCount := by
  obtain ⟨x, hx, -⟩ := (mem_byParts_iff h s hspan.1 hspan.2).mp hs
  exact id_lt_of_symbol? hx

/-- **A candidate has only symbols of the grammar**, itself and in its backpointer. -/
theorem id_lt_of_offered {span : Span} {s : Symbol} {e : Entry}
    (h : g.Offered words span s e) : s.id < g.symbolCount ∧ e.back.Known g := by
  cases h with
  | word _ _ hx => exact ⟨id_lt_of_symbol? hx, trivial⟩
  | split _ _ _ hx hy hz _ _ =>
    exact ⟨id_lt_of_symbol? hx, id_lt_of_symbol? hy, id_lt_of_symbol? hz⟩

/-- **The symbols in the two tables** are those of the grammar. -/
theorem known_viterbiCell (h : g.Consistent) {span : Span} (hspan : span.Within words.length) :
    (∀ s ∈ (g.viterbiCell words span).scores, s.id < g.symbolCount) ∧
      ∀ (s : Symbol) (b : Backpointer), (g.viterbiCell words span).back[s]? = some b →
        s.id < g.symbolCount ∧ b.Known g := by
  have hstep := inStep_viterbiCell g words span
  have hentry : ∀ s e, (g.viterbiCell words span).find? s = some e →
      s.id < g.symbolCount ∧ e.back.Known g :=
    fun s e he => id_lt_of_offered (offered_of_find? h hspan.1 hspan.2 he)
  constructor
  · intro s hs
    obtain ⟨e, he⟩ := hstep.mem_scores_iff.mp hs
    exact (hentry s e he).1
  · intro s b hb
    rw [hstep.back_eq, Option.map_eq_some_iff] at hb
    obtain ⟨e, he, rfl⟩ := hb
    exact hentry s e he

/-- **The text of a Viterbi chart** meets no unknown symbol. -/
theorem Charts.exists_text {v : ViterbiChart} (hv : g.Charts words v) (h : g.Consistent) :
    ∃ text, v.render = .ok text := by
  refine ViterbiChart.render_eq_ok ?_
  rw [hv.size_eq]
  intro span hspan
  obtain ⟨hsymbols, hknown⟩ := known_viterbiCell h hspan
  refine ViterbiChart.renderSpan_eq_ok (hv.cell_eq span hspan) (hv.back_eq span hspan) ?_ ?_
  · rwa [hv.grammar_eq]
  · rw [hv.grammar_eq]
    exact fun s b hb => (hknown s b hb).2

/-! ## Charts -/

theorem recognize_filledOnce (hn : Table.Fits words.length) {r : RecognitionChart}
    (h : g.recognize words = .ok r) : r.table.FilledOnce words.length := by
  obtain ⟨t, ht, hr⟩ := bind_eq_ok.mp h
  obtain rfl : ⟨g, t⟩ = r := pure_eq_ok.mp hr
  exact Table.fill_filledOnce hn ht

theorem bestParse_filledOnce (hn : Table.Fits words.length) {v : ViterbiChart}
    (h : g.bestParse words = .ok v) :
    v.scores.FilledOnce words.length ∧ v.back.FilledOnce words.length := by
  obtain ⟨t, ht, hv⟩ := bind_eq_ok.mp h
  obtain rfl : ⟨g, words, t.scores, t.back⟩ = v := pure_eq_ok.mp hv
  exact fillTables_filledOnce hn ht

theorem recognize_names (h : g.Consistent) (hn : Table.Fits words.length) :
    ∃ r, g.recognize words = .ok r ∧ r.size = words.length ∧
      ∀ span : Span, span.Within words.length → ∃ cell names, r.cell span = .ok cell ∧
        (∀ s ∈ cell, s.id < g.symbolCount) ∧ r.namesAt span = .ok names := by
  obtain ⟨r, hr, hgrammar, hsize, hcells⟩ := recognize_cells g hn
  refine ⟨r, hr, hsize, ?_⟩
  intro span hspan
  have hknown : ∀ s ∈ Table.byParts g.symbolsOfWord g.symbolsOfSplits words span,
      s.id < g.symbolCount := fun s hs => id_lt_of_mem_byParts h hspan hs
  obtain ⟨names, hnames⟩ :=
    RecognitionChart.namesAt_eq_ok (hcells span hspan) (by rwa [hgrammar])
  exact ⟨_, names, hcells span hspan, hknown, hnames⟩

/-- **The fills meet no fault, and neither does showing the charts.**  For every grammar and every
sentence whose chart has a size, both charts are made.  Each cell of the recognition table, of the
table of scores and of the table of backpointers is written once.  The symbols in their cells and in
the backpointers are symbols of the grammar; every span has its names, and both charts have texts. -/
theorem charts_are_filled (h : g.Built) (hn : Table.Fits words.length) :
    (∃ r, g.recognize words = .ok r ∧ r.table.FilledOnce words.length ∧
      (∀ span : Span, span.Within words.length → ∃ cell names, r.cell span = .ok cell ∧
        (∀ s ∈ cell, s.id < g.symbolCount) ∧ r.namesAt span = .ok names) ∧
      ∃ text, r.render = .ok text) ∧
    ∃ v, g.bestParse words = .ok v ∧ v.scores.FilledOnce words.length ∧
      v.back.FilledOnce words.length ∧
      (∀ span : Span, span.Within words.length → ∃ cell back, v.cell span = .ok cell ∧
        v.back.get span = .ok back ∧ (∀ s ∈ cell, s.id < g.symbolCount) ∧
        ∀ (s : Symbol) (b : Backpointer), back[s]? = some b → s.id < g.symbolCount ∧
          ∀ k left right, b = .binary k left right →
            left.id < g.symbolCount ∧ right.id < g.symbolCount) ∧
      ∃ text, v.render = .ok text := by
  constructor
  · obtain ⟨r, hr, hsize, hspans⟩ := recognize_names h.consistent hn
    refine ⟨r, hr, recognize_filledOnce hn hr, hspans, RecognitionChart.render_eq_ok ?_⟩
    rw [hsize]
    intro span hspan
    obtain ⟨-, names, -, -, hnames⟩ := hspans span hspan
    exact ⟨names, hnames⟩
  · obtain ⟨v, hv, hchart⟩ := bestParse_eq_ok g hn
    obtain ⟨hscores, hback⟩ := bestParse_filledOnce hn hv
    refine ⟨v, hv, hscores, hback, ?_, hchart.exists_text h.consistent⟩
    intro span hspan
    obtain ⟨hsymbols, hknown⟩ := known_viterbiCell h.consistent hspan
    refine ⟨_, _, hchart.cell_eq span hspan, hchart.back_eq span hspan, hsymbols, ?_⟩
    intro s b hb
    obtain ⟨hs, hb⟩ := hknown s b hb
    refine ⟨hs, fun k left right heq => ?_⟩
    rwa [heq] at hb

/-- The charts of `a a` have texts, and the whole sentence has a name in its cell. -/
theorem repeating_charts_are_filled : repeating.Built ∧ Table.Fits 2 ∧
    ∃ r v names, repeating.recognize ["a", "a"] = .ok r ∧
      repeating.bestParse ["a", "a"] = .ok v ∧ v.scores.isFilled ⟨0, 2⟩ = .ok true ∧
        v.back.isFilled ⟨0, 2⟩ = .ok true ∧ r.namesAt ⟨0, 2⟩ = .ok names ∧
          (∃ text, r.render = .ok text) ∧ ∃ text, v.render = .ok text := by
  have hfits : Table.Fits ["a", "a"].length := by decide
  obtain ⟨⟨r, hr, -, hspans, hrecognition⟩, v, hv, hscores, hback, -, hviterbi⟩ :=
    charts_are_filled built_repeating hfits
  obtain ⟨-, names, -, -, hnames⟩ := hspans ⟨0, 2⟩ (by decide)
  exact ⟨built_repeating, hfits, r, v, names, hr, hv, hscores.filled ⟨0, 2⟩ (by decide),
    hback.filled ⟨0, 2⟩ (by decide), hnames, hrecognition, hviterbi⟩

end Grammar

end ChartParsing
