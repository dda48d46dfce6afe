import ChartParsing.Proofs.Derivation
import ChartParsing.Proofs.Viterbi.Cells

/-!
# Extracted trees

Scores and backpointers stand in two tables.  Since these are in step, a backpointer and the score of
the same symbol belong to one entry.  An entry was offered by a rule, and its backpointer says by
which one: a word, or a split and the symbols of the two parts.  So a tree is extracted from every
entry, by induction on entries, and its value is built from the scores of the parts just as the score
of the entry was.

* `DerivationOf`: a derivation tree of a symbol over a span, with its value.
* `extract_eq_ok`: an entry gives such a tree, whose value is the score.
* `extract_eq_error`: without an entry the error names the symbol and the span of the request.
-/

namespace ChartParsing

/-- The tree derives the words of the span from the symbol, with this value. -/
structure Grammar.DerivationOf (g : Grammar) (words : List String) (s : Symbol) (span : Span)
    (value : Float) (t : Tree) : Prop where
  label_eq : g.name? s = some t.label
  span_eq : t.span = span
  derivation : g.IsDerivation t
  words_eq : t.words = span.slice words
  leaves_eq : t.leaves = span.leaves words
  value_eq : g.value? t = some value

namespace ViterbiChart

variable {c : ViterbiChart} {symbol : Symbol} {span : Span}

/-! ## One step of the extraction -/

theorem extract_none (h : c.backpointer span symbol = .ok none) :
    c.extract symbol span = .error (.noDerivation (c.symbolLabel symbol) span) := by
  rw [extract, h]
  rfl

theorem extract_lexical {x w : String} (h : c.backpointer span symbol = .ok (some .lexical))
    (hname : c.grammar.name symbol = .ok x) (hword : c.words[span.start]? = some w) :
    c.extract symbol span = .ok (.branch x span [.leaf w span]) := by
  rw [extract, h]
  show (orFault (c.grammar.name symbol) >>= fun label => _) = _
  rw [hname, hword]
  rfl

theorem extract_binary {x : String} {k : Nat} {b d : Symbol} {l r : Tree}
    (h : c.backpointer span symbol = .ok (some (.binary k b d)))
    (hname : c.grammar.name symbol = .ok x) (hk : span.start < k ∧ k < span.stop)
    (hl : c.extract b ⟨span.start, k⟩ = .ok l) (hr : c.extract d ⟨k, span.stop⟩ = .ok r) :
    c.extract symbol span = .ok (.branch x span [l, r]) := by
  rw [extract, h]
  show (orFault (c.grammar.name symbol) >>= fun label => _) = _
  rw [hname]
  show (if _h : span.start < k ∧ k < span.stop then _ else _) = _
  rw [dif_pos hk, hl, hr]
  rfl

end ViterbiChart

namespace Grammar

variable {g : Grammar} {words : List String}

/-! ## Trees from entries -/

theorem derivationOf_word (h : g.Consistent) {i : Nat} {x : String} {p : Option Probability}
    {s : Symbol} (hi : i < words.length) (hrule : Rule.lexical x words[i] p ∈ g.rules)
    (hx : g.symbol? x = some s) :
    g.DerivationOf words s ⟨i, i + 1⟩ (Rule.weightOf p)
      (.branch x ⟨i, i + 1⟩ [.leaf words[i] ⟨i, i + 1⟩]) where
  label_eq := symbol?_eq_some_iff.mp hx
  span_eq := rfl
  derivation := .lexical hrule
  words_eq := (Span.slice_word hi).symm
  leaves_eq := by
    rw [Span.leaves, Span.slice_word hi]
    rfl
  value_eq := value?_word (h.weight?_eq hrule)

theorem derivationOf_split (h : g.Consistent) {i k j : Nat} {x y z : String}
    {p : Option Probability} {s b d : Symbol} {a a' : Float} {l r : Tree} (hik : i < k)
    (hkj : k < j) (hj : j ≤ words.length) (hrule : Rule.binary x y z p ∈ g.rules)
    (hx : g.symbol? x = some s) (hy : g.symbol? y = some b) (hz : g.symbol? z = some d)
    (hl : g.DerivationOf words b ⟨i, k⟩ a l) (hr : g.DerivationOf words d ⟨k, j⟩ a' r) :
    g.DerivationOf words s ⟨i, j⟩ (Rule.weightOf p * a * a') (.branch x ⟨i, j⟩ [l, r]) := by
  have hleft : y = l.label := symbol?_injective hy (symbol?_eq_some_iff.mpr hl.label_eq)
  have hright : z = r.label := symbol?_injective hz (symbol?_eq_some_iff.mpr hr.label_eq)
  rw [hleft, hright] at hrule
  exact {
    label_eq := symbol?_eq_some_iff.mp hx
    span_eq := rfl
    derivation := .binary hrule hik hkj hl.span_eq hr.span_eq hl.derivation hr.derivation
    words_eq := by
      rw [Tree.words_pair, hl.words_eq, hr.words_eq,
        Span.slice_append (Nat.le_of_lt hik) (Nat.le_of_lt hkj)]
    leaves_eq := by
      rw [Tree.leaves_pair, hl.leaves_eq, hr.leaves_eq,
        Span.leaves_append (Nat.le_of_lt hik) (Nat.le_of_lt hkj) hj]
    value_eq := value?_split (h.weight?_eq hrule) hl.value_eq hr.value_eq }

/-! ## Charts -/

variable {c : ViterbiChart}

/-- **An entry gives a tree**, whose value is the score of the entry. -/
theorem extract_eq_ok (h : g.Consistent) (hc : g.Charts words c) {i j : Nat} (hij : i < j)
    (hj : j ≤ words.length) {s : Symbol} {e : Entry}
    (he : (g.viterbiCell words ⟨i, j⟩).find? s = some e) :
    ∃ t, c.extract s ⟨i, j⟩ = .ok t ∧ g.DerivationOf words s ⟨i, j⟩ e.score t := by
  refine h.entry_induction ?_ ?_ hij hj he
  · intro i x p s hi hrule hx he
    have hspan : Span.Within ⟨i, i + 1⟩ words.length := ⟨Nat.lt_succ_self i, hi⟩
    have hback := hc.backpointer_eq hspan s
    rw [he] at hback
    have hword : c.words[i]? = some words[i] := by
      rw [hc.words_eq]
      exact List.getElem?_eq_getElem hi
    exact ⟨_, ViterbiChart.extract_lexical hback (hc.name_eq hx) hword,
      derivationOf_word h hi hrule hx⟩
  · intro i k j x y z p s b d l r hik hkj hj hrule hx hy hz he ihl ihr
    have hspan : Span.Within ⟨i, j⟩ words.length := ⟨Nat.lt_trans hik hkj, hj⟩
    have hback := hc.backpointer_eq hspan s
    rw [he] at hback
    obtain ⟨tl, hextractLeft, hleft⟩ := ihl
    obtain ⟨tr, hextractRight, hright⟩ := ihr
    exact ⟨_, ViterbiChart.extract_binary hback (hc.name_eq hx) ⟨hik, hkj⟩ hextractLeft
      hextractRight, derivationOf_split h hik hkj hj hrule hx hy hz hleft hright⟩

/-- Without an entry the error names the symbol and the span of the request. -/
theorem extract_eq_error (hc : g.Charts words c) {i j : Nat} (hij : i < j)
    (hj : j ≤ words.length) {s : Symbol} (he : (g.viterbiCell words ⟨i, j⟩).find? s = none) :
    c.extract s ⟨i, j⟩ =
      .error (.noDerivation ((g.name? s).getD ("#" ++ toString s.id)) ⟨i, j⟩) := by
  have hback : c.backpointer ⟨i, j⟩ s = _ := hc.backpointer_eq ⟨hij, hj⟩ s
  rw [he] at hback
  rw [ViterbiChart.extract_none hback, ViterbiChart.symbolLabel, hc.grammar_eq]

/-- The empty sentence has no tree. -/
theorem Charts.bestTree_nil (hc : g.Charts [] c) :
    c.bestTree = .error (.noDerivation g.startName ⟨0, 0⟩) := by
  rw [ViterbiChart.bestTree, ViterbiChart.isEmpty, hc.size_eq, hc.grammar_eq]
  rfl

/-- The best tree is that of the start symbol over all words. -/
theorem Charts.bestTree_eq (hc : g.Charts words c) (hne : words ≠ []) :
    c.bestTree = c.extract g.start ⟨0, words.length⟩ := by
  have hnonempty : c.isEmpty = false := by
    rw [ViterbiChart.isEmpty, hc.size_eq]
    exact decide_eq_false (Nat.ne_of_gt (List.length_pos_iff.mpr hne))
  rw [ViterbiChart.bestTree, hnonempty, hc.size_eq, hc.grammar_eq]
  rfl

/-- **Extraction is exact.**  For every grammar and every sentence whose chart has a size, the best
parse succeeds.  A symbol with a score in the cell of a span gives a derivation tree over the span,
made from the backpointers, and the value of the tree is the score.  Any other symbol gives an error
that names it and the span. -/
theorem extract_exact (h : g.Built) (hn : Table.Fits words.length) :
    ∃ c, g.bestParse words = .ok c ∧ ∀ i j, i < j → j ≤ words.length →
      ∃ cell, c.cell ⟨i, j⟩ = .ok cell ∧ ∀ s,
        (s ∈ cell → ∃ t m, c.extract s ⟨i, j⟩ = .ok t ∧ c.score ⟨i, j⟩ s = .ok (some m) ∧
          g.DerivationOf words s ⟨i, j⟩ m t) ∧
        (s ∉ cell → c.extract s ⟨i, j⟩ =
          .error (.noDerivation ((g.name? s).getD ("#" ++ toString s.id)) ⟨i, j⟩)) := by
  obtain ⟨c, hc, hchart⟩ := bestParse_eq_ok g hn
  refine ⟨c, hc, fun i j hij hj => ⟨_, hchart.cell_eq ⟨i, j⟩ ⟨hij, hj⟩, fun s => ⟨?_, ?_⟩⟩⟩
  · intro hs
    obtain ⟨e, he⟩ := (inStep_viterbiCell g words ⟨i, j⟩).mem_scores_iff.mp hs
    obtain ⟨t, hextract, ht⟩ := extract_eq_ok h.consistent hchart hij hj he
    refine ⟨t, e.score, hextract, ?_, ht⟩
    rw [hchart.score_eq ⟨hij, hj⟩, he]
    rfl
  · intro hs
    rw [(inStep_viterbiCell g words ⟨i, j⟩).mem_scores_iff, not_exists,
      ← Option.eq_none_iff_forall_ne_some] at hs
    exact extract_eq_error hchart hij hj hs

/-- The sentence `a a` has a tree from `S`, and none from a symbol that no grammar rule names. -/
theorem repeating_extract : repeating.Built ∧ Table.Fits 2 ∧
    ∃ c t, repeating.bestParse ["a", "a"] = .ok c ∧ c.extract ⟨0⟩ ⟨0, 2⟩ = .ok t ∧
      t.words = ["a", "a"] ∧ c.extract ⟨7⟩ ⟨0, 2⟩ = .error (.noDerivation "#7" ⟨0, 2⟩) := by
  have hfits : Table.Fits ["a", "a"].length := by decide
  obtain ⟨c, hc, hspans⟩ := extract_exact built_repeating hfits
  obtain ⟨cell, hcell, hsymbols⟩ := hspans 0 2 (by decide) (by decide)
  have hkeys : (do
      let c ← (repeating.bestParse ["a", "a"]).toOption
      let cell ← (c.cell ⟨0, 2⟩).toOption
      return (cell.contains ⟨0⟩, cell.contains ⟨7⟩)) = some (true, false) := by decide
  rw [hc] at hkeys
  have hkeys' : (cell.contains ⟨0⟩, cell.contains ⟨7⟩) = (true, false) := by
    simpa [hcell, Except.toOption] using hkeys
  obtain ⟨hstart, hunknown⟩ := Prod.mk.inj hkeys'
  obtain ⟨t, _, hextract, -, ht⟩ := (hsymbols ⟨0⟩).1 (Std.TreeMap.mem_iff_contains.mpr hstart)
  have herror := (hsymbols ⟨7⟩).2 (by rw [Std.TreeMap.mem_iff_contains, hunknown]; decide)
  exact ⟨built_repeating, hfits, c, t, hc, hextract, ht.words_eq, herror⟩

end Grammar

end ChartParsing
