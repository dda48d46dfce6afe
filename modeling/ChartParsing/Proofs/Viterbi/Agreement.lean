import ChartParsing.Proofs.Recognition
import ChartParsing.Proofs.Viterbi.Extraction

/-!
# The two charts agree

Recognition keeps sets of symbols, the best parse keeps scores and backpointers.  Both fill their
tables by the same recursion over spans, and one step of the one has the symbols of one step of the
other: a candidate may be replaced by a better one for the same symbol, but a symbol that was offered
stays.  Scores play no part in this, so a score of zero counts like any other.  And the backpointers
have the symbols of the scores, since the two maps of a cell are in step.

* `mem_symbolsOfSplits_iff`: the step.
* `mem_byParts_iff_mem_scores`: the recursions, by `Table.byParts_related`.
* `charts_agree`: the charts, and what they say about the sentence.
-/

namespace ChartParsing.Grammar

variable {g : Grammar} {words : List String}

/-! ## Cells -/

theorem mem_scores_cellOfWord {w : String} {s : Symbol} :
    s ∈ (g.cellOfWord w).scores ↔ ∃ a ∈ g.lexical w, a.1 = s := by
  have aux : ∀ (ps : List WeightedParent) (cell : Cell),
      s ∈ (ps.foldl (fun cell p => cell.record p.1 ⟨p.2, .lexical⟩) cell).scores ↔
        s ∈ cell.scores ∨ ∃ a ∈ ps, a.1 = s := by
    intro ps
    induction ps with
    | nil => simp
    | cons p ps ih =>
      intro cell
      have hrecord : s ∈ (cell.record p.1 ⟨p.2, .lexical⟩).scores ↔ s ∈ cell.scores ∨ p.1 = s := by
        rw [Std.TreeMap.mem_iff_isSome_getElem?, Std.TreeMap.mem_iff_isSome_getElem?,
          Cell.scores_record]
        by_cases hs : p.1 = s
        · simp [hs]
        · simp [hs]
      rw [List.foldl_cons, ih, hrecord, or_assoc, List.exists_mem_cons_iff]
  exact (aux (g.lexical w) .empty).trans (or_iff_right Std.TreeMap.not_mem_emptyc)

theorem mem_symbolsOfWord_iff {w : String} {s : Symbol} :
    s ∈ g.symbolsOfWord w ↔ s ∈ (g.cellOfWord w).scores :=
  mem_symbolsOfWord.trans mem_scores_cellOfWord.symm

/-- **The step.**  Where the parts have the same symbols, the wholes have. -/
theorem mem_symbolsOfSplits_iff {ks : List Nat} {l r : Nat → SymbolSet} {l' r' : Nat → Cell}
    (h : ∀ k ∈ ks, (∀ b, b ∈ l k ↔ b ∈ (l' k).scores) ∧ ∀ c, c ∈ r k ↔ c ∈ (r' k).scores)
    (s : Symbol) :
    s ∈ g.symbolsOfSplits (ks.map fun k => ⟨k, l k, r k⟩) ↔
      s ∈ (g.cellOfParts (ks.map fun k => ⟨k, l' k, r' k⟩)).scores := by
  rw [mem_symbolsOfSplits, cellOfParts, cellOfSplits, Cell.mem_scores_ofCandidates, List.map_map]
  simp only [mem_candidates_iff]
  constructor
  · rintro ⟨p, hp, b, hb, c, hc, a, ha, rfl⟩
    obtain ⟨k, hk, rfl⟩ := List.mem_map.mp hp
    obtain ⟨x, hx⟩ := Option.isSome_iff_exists.mp
      (Std.TreeMap.mem_iff_isSome_getElem?.mp (((h k hk).1 b).mp hb))
    obtain ⟨y, hy⟩ := Option.isSome_iff_exists.mp
      (Std.TreeMap.mem_iff_isSome_getElem?.mp (((h k hk).2 c).mp hc))
    exact ⟨_, _, List.mem_map.mpr ⟨k, hk, rfl⟩, b, x, hx, c, y, hy, a.2, ha, rfl⟩
  · rintro ⟨e, p, hp, b, x, hx, c, y, hy, w, ha, -⟩
    obtain ⟨k, hk, rfl⟩ := List.mem_map.mp hp
    have hb : b ∈ (l' k).scores :=
      Std.TreeMap.mem_iff_isSome_getElem?.mpr (Option.isSome_iff_exists.mpr ⟨x, hx⟩)
    have hc : c ∈ (r' k).scores :=
      Std.TreeMap.mem_iff_isSome_getElem?.mpr (Option.isSome_iff_exists.mpr ⟨y, hy⟩)
    exact ⟨_, List.mem_map.mpr ⟨k, hk, rfl⟩, b, ((h k hk).1 b).mpr hb, c, ((h k hk).2 c).mpr hc,
      (s, w), ha, rfl⟩

/-- **The two recursions** give every span the same symbols. -/
theorem mem_byParts_iff_mem_scores (g : Grammar) (words : List String) (span : Span)
    (s : Symbol) :
    s ∈ Table.byParts g.symbolsOfWord g.symbolsOfSplits words span ↔
      s ∈ (g.viterbiCell words span).scores :=
  Table.byParts_related
    (fun (symbols : SymbolSet) (cell : Cell) => ∀ s, s ∈ symbols ↔ s ∈ cell.scores)
    (fun _ _ => mem_symbolsOfWord_iff) (fun _ _ _ _ _ h s => mem_symbolsOfSplits_iff h s) span s

/-! ## Charts -/

/-- The start symbol has an entry over the words just when the sentence is accepted. -/
theorem accepts_iff_exists_entry (g : Grammar) (hn : Table.Fits words.length) :
    ∃ b, g.accepts words = .ok b ∧
      (b = true ↔ words ≠ [] ∧ ∃ e, (g.viterbiCell words ⟨0, words.length⟩).find? g.start =
        some e) := by
  obtain ⟨b, haccepts, hb⟩ := accepts_cells g hn
  refine ⟨b, haccepts, ?_⟩
  rw [hb, mem_byParts_iff_mem_scores, (inStep_viterbiCell g words _).mem_scores_iff]

/-- A sentence is accepted just when it has a best score, and just when it has a best tree. -/
theorem Charts.answers_agree {c : ViterbiChart} (h : g.Consistent) (hn : Table.Fits words.length)
    (hc : g.Charts words c) :
    ∃ accepted best, g.accepts words = .ok accepted ∧ c.bestProbability = .ok best ∧
      (accepted = true ↔ best.isSome = true) ∧
      (accepted = true → ∃ t, c.bestTree = .ok t) ∧
      (accepted = false →
        c.bestTree = .error (.noDerivation g.startName ⟨0, words.length⟩)) := by
  obtain ⟨accepted, haccepts, hiff⟩ := accepts_iff_exists_entry g hn
  by_cases hne : words = []
  · subst hne
    have hfalse : accepted = false := Bool.eq_false_iff.mpr fun htrue => (hiff.mp htrue).1 rfl
    subst hfalse
    exact ⟨false, none, haccepts, hc.bestProbability_nil, by simp, by simp,
      fun _ => hc.bestTree_nil⟩
  · have hpos : 0 < words.length := List.length_pos_iff.mpr hne
    refine ⟨accepted, _, haccepts, hc.bestProbability_eq hne, ?_, ?_, ?_⟩
    · rw [hiff, Option.isSome_map, Option.isSome_iff_exists]
      exact ⟨And.right, fun hentry => ⟨hne, hentry⟩⟩
    · intro htrue
      obtain ⟨e, he⟩ := (hiff.mp htrue).2
      obtain ⟨t, ht, -⟩ := extract_eq_ok h hc hpos (Nat.le_refl _) he
      exact ⟨t, (hc.bestTree_eq hne).trans ht⟩
    · intro hfalse
      have hnone : (g.viterbiCell words ⟨0, words.length⟩).find? g.start = none := by
        rw [Option.eq_none_iff_forall_ne_some]
        intro e he
        exact absurd (hiff.mpr ⟨hne, e, he⟩) (by rw [hfalse]; decide)
      rw [hc.bestTree_eq hne, extract_eq_error hc hpos (Nat.le_refl _) hnone,
        symbol?_eq_some_iff.mp symbol?_startName]
      rfl

/-- **The two charts agree everywhere.**  For every grammar and every sentence whose chart has a
size, both charts are made.  A symbol is in a cell of the recognition chart just when it is in the
cell of scores, and just when it is in the cell of backpointers of the same span.  So a sentence is
accepted just when it has a best score, and just when it has a best tree; otherwise the error names
the start symbol and the whole span. -/
theorem charts_agree (h : g.Built) (hn : Table.Fits words.length) :
    ∃ r v, g.recognize words = .ok r ∧ g.bestParse words = .ok v ∧
      (∀ i j, i < j → j ≤ words.length → ∃ symbols cell back, r.cell ⟨i, j⟩ = .ok symbols ∧
        v.cell ⟨i, j⟩ = .ok cell ∧ v.back.get ⟨i, j⟩ = .ok back ∧
          ∀ s, (s ∈ symbols ↔ s ∈ cell) ∧ (s ∈ back ↔ s ∈ cell) ∧
            ∃ b, v.backpointer ⟨i, j⟩ s = .ok b ∧ (b.isSome = true ↔ s ∈ cell)) ∧
      ∃ accepted best, g.accepts words = .ok accepted ∧ v.bestProbability = .ok best ∧
        (accepted = true ↔ best.isSome = true) ∧
        (accepted = true → ∃ t, v.bestTree = .ok t) ∧
        (accepted = false →
          v.bestTree = .error (.noDerivation g.startName ⟨0, words.length⟩)) := by
  obtain ⟨r, hr, -, -, hcells⟩ := recognize_cells g hn
  obtain ⟨v, hv, hchart⟩ := bestParse_eq_ok g hn
  refine ⟨r, v, hr, hv, ?_, hchart.answers_agree h.consistent hn⟩
  intro i j hij hj
  have hstep := inStep_viterbiCell g words ⟨i, j⟩
  refine ⟨_, _, _, hcells ⟨i, j⟩ ⟨hij, hj⟩, hchart.cell_eq ⟨i, j⟩ ⟨hij, hj⟩,
    hchart.back_eq ⟨i, j⟩ ⟨hij, hj⟩, fun s => ⟨mem_byParts_iff_mem_scores g words ⟨i, j⟩ s,
      hstep.mem_back_iff, _, hchart.backpointer_eq ⟨hij, hj⟩ s, ?_⟩⟩
  rw [Option.isSome_map, Option.isSome_iff_exists, hstep.mem_scores_iff]

/-- The grammar `S -> S S | a`, each rule with the least positive double.  A product of two such
weights is zero. -/
def fading : Grammar :=
  assemble (Rule.binary "S" "S" "S" (some ⟨1⟩)) [Rule.lexical "S" "a" (some ⟨1⟩)]

theorem built_fading : fading.Built :=
  .ofRules (ofRules_of_offence?_eq_none rfl : ofRules fading.rules = .ok fading)

/-- The score of `a a` is zero; the sentence is accepted and has a tree all the same. -/
theorem fading_charts_agree : fading.Built ∧ Table.Fits 2 ∧
    fading.accepts ["a", "a"] = .ok true ∧ ∃ v t, fading.bestParse ["a", "a"] = .ok v ∧
      v.bestProbability = .ok (some 0) ∧ v.bestTree = .ok t := by
  have hfits : Table.Fits ["a", "a"].length := by decide
  obtain ⟨-, v, -, hv, -, accepted, best, haccepts, hbest, hiff, htree, -⟩ :=
    charts_agree built_fading hfits
  have hscore : ((fading.bestParse ["a", "a"]).bind ViterbiChart.bestProbability).toOption =
      some (some 0) := by decide +kernel
  rw [hv] at hscore
  have hzero : v.bestProbability.toOption = some (some 0) := hscore
  rw [hbest] at hzero
  obtain rfl : best = some 0 := Option.some.inj hzero
  have htrue : accepted = true := hiff.mpr rfl
  obtain ⟨t, ht⟩ := htree htrue
  exact ⟨built_fading, hfits, htrue ▸ haccepts, v, t, hv, hbest, ht⟩

end ChartParsing.Grammar
