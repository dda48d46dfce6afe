import ChartParsing.Proofs.Viterbi.Cells
import Mathlib.Data.Prod.Lex

/-!
# How ties are resolved

Several ways to derive a symbol over a span can have the same score.  The ways are tried by
ascending splits, then by ascending left and right symbols, and a way that is tried later has to be
better to replace the one that is kept.  So the backpointer is the lexicographically least of the
ways with the greatest score.

* `Backpointer.rank`: the place of a way in this order.
* `pairwise_candidates`: the candidates of a span come in this order.
* `entry_is_firstBest`: an entry compared with any candidate.
* `backpointer_is_first_best`: the same on the chart.
-/

namespace ChartParsing

/-- The place of a way to derive a span in the order in which the ways are tried: by the split, then
by the left symbol, then by the right one.  A word has no other way beside it. -/
def Backpointer.rank : Backpointer → ℕ ×ₗ ℕ ×ₗ ℕ
  | lexical => toLex (0, toLex (0, 0))
  | binary k left right => toLex (k, toLex (left.id, right.id))

namespace Backpointer

variable {k k' : Nat} {b b' c c' : Symbol}

theorem rank_le_of_split (h : k < k') : (binary k b c).rank ≤ (binary k' b' c').rank :=
  Prod.Lex.toLex_le_toLex.mpr (.inl h)

theorem rank_le_of_left (h : b.id < b'.id) : (binary k b c).rank ≤ (binary k b' c').rank :=
  Prod.Lex.toLex_le_toLex.mpr (.inr ⟨rfl, Prod.Lex.toLex_le_toLex.mpr (.inl h)⟩)

theorem rank_le_of_right (h : c.id < c'.id) : (binary k b c).rank ≤ (binary k b c').rank :=
  Prod.Lex.toLex_le_toLex.mpr
    (.inr ⟨rfl, Prod.Lex.toLex_le_toLex.mpr (.inr ⟨rfl, Nat.le_of_lt h⟩)⟩)

end Backpointer

/-- In the chart, a rule gives the symbol this candidate over the span: a split inside the span, a
left symbol with a score up to the split and a right symbol with a score from there on, and the
product of the weight and the two scores. -/
inductive ViterbiChart.Offers (c : ViterbiChart) : Span → Symbol → Backpointer → Float → Prop
  | binary {i k j : Nat} {x y z : String} {p : Option Probability} {s left right : Symbol}
      {a b : Float} :
      i < k → k < j → Rule.binary x y z p ∈ c.grammar.rules → c.grammar.symbol? x = some s →
        c.grammar.symbol? y = some left → c.grammar.symbol? z = some right →
          c.score ⟨i, k⟩ left = .ok (some a) → c.score ⟨k, j⟩ right = .ok (some b) →
            Offers c ⟨i, j⟩ s (.binary k left right) (Rule.weightOf p * a * b)

namespace Grammar

open Binary64

variable {g : Grammar} {words : List String}

/-! ## The order of the candidates -/

/-- The scores of a cell come by ascending symbols. -/
theorem pairwise_toList (scores : Scores) :
    scores.toList.Pairwise fun b b' => b.1.id < b'.1.id := by
  refine List.Pairwise.imp ?_ (Std.TreeMap.ordered_keys_toList (t := scores))
  intro b b' h
  exact Nat.compare_eq_lt.mp h

/-- **Candidates come in the order of their ranks**, if the splits come from left to right. -/
theorem pairwise_candidates {splits : List (Table.Split Scores)}
    (h : splits.Pairwise fun p q => p.position < q.position) :
    (g.candidates splits).Pairwise fun a b => a.2.back.rank ≤ b.2.back.rank := by
  rw [candidates, List.pairwise_flatMap]
  constructor
  · -- one split
    intro p _
    rw [List.pairwise_flatMap]
    constructor
    · -- one left symbol
      intro b _
      rw [List.pairwise_flatMap]
      constructor
      · -- one right symbol: only the parents differ
        intro c _
        rw [List.pairwise_map]
        exact List.pairwise_of_forall fun _ _ => le_refl _
      · refine (pairwise_toList p.right).imp ?_
        intro c c' hlt x hx y hy
        obtain ⟨_, -, rfl⟩ := List.mem_map.mp hx
        obtain ⟨_, -, rfl⟩ := List.mem_map.mp hy
        exact Backpointer.rank_le_of_right hlt
    · refine (pairwise_toList p.left).imp ?_
      intro b b' hlt x hx y hy
      obtain ⟨_, -, hx⟩ := List.mem_flatMap.mp hx
      obtain ⟨_, -, hy⟩ := List.mem_flatMap.mp hy
      obtain ⟨_, -, rfl⟩ := List.mem_map.mp hx
      obtain ⟨_, -, rfl⟩ := List.mem_map.mp hy
      exact Backpointer.rank_le_of_left hlt
  · refine h.imp ?_
    intro p q hlt x hx y hy
    obtain ⟨_, -, hx⟩ := List.mem_flatMap.mp hx
    obtain ⟨_, -, hx⟩ := List.mem_flatMap.mp hx
    obtain ⟨_, -, hy⟩ := List.mem_flatMap.mp hy
    obtain ⟨_, -, hy⟩ := List.mem_flatMap.mp hy
    obtain ⟨_, -, rfl⟩ := List.mem_map.mp hx
    obtain ⟨_, -, rfl⟩ := List.mem_map.mp hy
    exact Backpointer.rank_le_of_split hlt

theorem pairwise_spanCandidates (g : Grammar) (words : List String) (i j : Nat) (s : Symbol) :
    (Cell.candidatesFor s (g.spanCandidates words i j)).Pairwise fun a b =>
      a.back.rank ≤ b.back.rank := by
  rw [Cell.candidatesFor, List.pairwise_map]
  refine (pairwise_candidates ?_).filter _
  rw [List.pairwise_map]
  exact List.pairwise_lt_range'

/-! ## Entries -/

/-- **An entry is the first of the best candidates**: any candidate for the symbol has a smaller
score, or the same score and no smaller rank. -/
theorem entry_is_firstBest (h : g.Consistent) {i j : Nat} (hij : i + 1 < j)
    (hj : j ≤ words.length) {s : Symbol} {b : Entry}
    (hb : (g.viterbiCell words ⟨i, j⟩).find? s = some b) {e : Entry}
    (he : g.Offered words ⟨i, j⟩ s e) :
    e.score < b.score ∨ e.score = b.score ∧ b.back.rank ≤ e.back.rank := by
  have hmem : ∀ e, e ∈ Cell.candidatesFor s (g.spanCandidates words i j) ↔
      g.Offered words ⟨i, j⟩ s e := fun e =>
    Cell.mem_candidatesFor.trans (mem_spanCandidates_iff words h hij)
  have hunit : ∀ e ∈ Cell.candidatesFor s (g.spanCandidates words i j), InUnit e.score :=
    fun e he => inUnit_of_offered h hj ((hmem e).mp he)
  have horder := pairwise_spanCandidates g words i j s
  rw [viterbiCell_of_lt g words hij, Cell.find?_ofCandidates] at hb
  have hbest := hunit b (Cell.mem_of_best_eq_some hb)
  have hother := hunit e ((hmem e).mpr he)
  obtain ⟨before, after, hsplit, hbefore, hafter⟩ := Cell.isFirstBest_of_best_eq_some hunit hb
  have hlt : e.score < b.score ↔ _ := lt_iff hother.lt_infinityBits hbest.lt_infinityBits
  rw [hsplit] at hmem horder
  rcases List.mem_append.mp ((hmem e).mpr he) with hearlier | hrest
  · exact .inl (hlt.mpr (hbefore e hearlier))
  · rcases List.mem_cons.mp hrest with rfl | hlater
    · exact .inr ⟨rfl, le_refl _⟩
    · have hrank := (List.pairwise_cons.mp (List.pairwise_append.mp horder).2.1).1 e hlater
      rcases Nat.lt_or_eq_of_le (hafter e hlater) with hless | heq
      · exact .inl (hlt.mpr hless)
      · exact .inr ⟨eq_of_toNat_toBits_eq heq, hrank⟩

/-! ## Charts -/

variable {c : ViterbiChart}

/-- The candidates of the chart are those of the recursion over spans. -/
theorem Charts.offers_iff (hc : g.Charts words c) {i j : Nat} (hij : i + 1 < j)
    (hj : j ≤ words.length) {s : Symbol} {b : Backpointer} {m : Float} :
    c.Offers ⟨i, j⟩ s b m ↔ g.Offered words ⟨i, j⟩ s ⟨m, b⟩ := by
  constructor
  · intro ho
    cases ho with
    | @binary _ k _ x y z p _ left right a b hik hkj hrule hx hy hz ha hb =>
      rw [hc.grammar_eq] at hrule hx hy hz
      have hk : k ≤ words.length := Nat.le_trans (Nat.le_of_lt hkj) hj
      obtain ⟨l, hl, rfl⟩ := (hc.score_eq_some_iff ⟨hik, hk⟩).mp ha
      obtain ⟨r, hr, rfl⟩ := (hc.score_eq_some_iff ⟨hkj, hj⟩).mp hb
      exact .split hik hkj hrule hx hy hz hl hr
  · intro ho
    cases ho with
    | word _ _ _ => exact absurd hij (Nat.lt_irrefl _)
    | @split _ k _ x y z p _ left right l r hik hkj hrule hx hy hz hl hr =>
      have hgrammar := hc.grammar_eq
      subst hgrammar
      have hk : k ≤ words.length := Nat.le_trans (Nat.le_of_lt hkj) hj
      exact .binary hik hkj hrule hx hy hz
        ((hc.score_eq_some_iff ⟨hik, hk⟩).mpr ⟨l, hl, rfl⟩)
        ((hc.score_eq_some_iff ⟨hkj, hj⟩).mpr ⟨r, hr, rfl⟩)

/-- **Ties are resolved by a fixed rule.**  For every grammar and every sentence whose chart has a
size, the best parse succeeds.  An entry of one word begins with the word, and its score is the
weight of the rule.  An entry of a longer span is one of the candidates of its symbol; every
candidate has a smaller score, or the same score and no smaller rank. -/
theorem backpointer_is_first_best (h : g.Built) (hn : Table.Fits words.length) :
    ∃ c, g.bestParse words = .ok c ∧
      (∀ i (hi : i < words.length), ∃ cell, c.cell ⟨i, i + 1⟩ = .ok cell ∧ ∀ s ∈ cell,
        c.backpointer ⟨i, i + 1⟩ s = .ok (some .lexical) ∧
          ∃ x p, Rule.lexical x words[i] p ∈ g.rules ∧ g.symbol? x = some s ∧
            c.score ⟨i, i + 1⟩ s = .ok (some (Rule.weightOf p))) ∧
      ∀ i j, i + 2 ≤ j → j ≤ words.length → ∃ cell, c.cell ⟨i, j⟩ = .ok cell ∧ ∀ s ∈ cell,
        ∃ b m, c.backpointer ⟨i, j⟩ s = .ok (some b) ∧ c.score ⟨i, j⟩ s = .ok (some m) ∧
          c.Offers ⟨i, j⟩ s b m ∧
            ∀ b' m', c.Offers ⟨i, j⟩ s b' m' → m' < m ∨ m' = m ∧ b.rank ≤ b'.rank := by
  obtain ⟨c, hc, hchart⟩ := bestParse_eq_ok g hn
  have hentry : ∀ {span s}, s ∈ (g.viterbiCell words span).scores →
      ∃ e, (g.viterbiCell words span).find? s = some e := fun hs =>
    (inStep_viterbiCell g words _).mem_scores_iff.mp hs
  refine ⟨c, hc, ?_, ?_⟩
  · intro i hi
    have hspan : Span.Within ⟨i, i + 1⟩ words.length := ⟨Nat.lt_succ_self i, hi⟩
    refine ⟨_, hchart.cell_eq _ hspan, ?_⟩
    intro s hs
    obtain ⟨e, he⟩ := hentry hs
    have hback := hchart.backpointer_eq hspan s
    have hscore := hchart.score_eq hspan s
    rw [he] at hback hscore
    cases offered_of_find? h.consistent (Nat.lt_succ_self i) hi he with
    | @word _ x p _ hi hrule hx => exact ⟨hback, x, p, hrule, hx, hscore⟩
    | split hik hkj => omega
  · intro i j hij hj
    have hlt : i < j := by omega
    have hspan : Span.Within ⟨i, j⟩ words.length := ⟨hlt, hj⟩
    refine ⟨_, hchart.cell_eq _ hspan, ?_⟩
    intro s hs
    obtain ⟨e, he⟩ := hentry hs
    have hback := hchart.backpointer_eq hspan s
    have hscore := hchart.score_eq hspan s
    rw [he] at hback hscore
    refine ⟨e.back, e.score, hback, hscore, ?_, ?_⟩
    · exact (hchart.offers_iff hij hj).mpr (offered_of_find? h.consistent hlt hj he)
    · intro b' m' ho
      have hfirst := entry_is_firstBest h.consistent hij hj he ((hchart.offers_iff hij hj).mp ho)
      exact hfirst

/-- The sentence `a a a` has two best derivations, and the one with the earlier split is kept. -/
theorem repeating_backpointer : repeating.Built ∧ Table.Fits 3 ∧
    ∃ c m, repeating.bestParse ["a", "a", "a"] = .ok c ∧
      c.backpointer ⟨0, 3⟩ ⟨0⟩ = .ok (some (.binary 1 ⟨0⟩ ⟨0⟩)) ∧
      c.score ⟨0, 3⟩ ⟨0⟩ = .ok (some m) ∧
        ∀ b' m', c.Offers ⟨0, 3⟩ ⟨0⟩ b' m' →
          m' < m ∨ m' = m ∧ (Backpointer.binary 1 ⟨0⟩ ⟨0⟩).rank ≤ b'.rank := by
  have hfits : Table.Fits ["a", "a", "a"].length := by decide
  obtain ⟨c, hc, -, hlong⟩ := backpointer_is_first_best built_repeating hfits
  obtain ⟨cell, hcell, hentries⟩ := hlong 0 3 (by decide) (by decide)
  have hkey : (((repeating.bestParse ["a", "a", "a"]).bind fun c => c.cell ⟨0, 3⟩).toOption.map
      fun cell => cell.contains ⟨0⟩) = some true := by decide +kernel
  rw [hc] at hkey
  have hkey' : ((c.cell ⟨0, 3⟩).toOption.map fun cell => cell.contains ⟨0⟩) = some true := hkey
  rw [hcell] at hkey'
  have hmem : (⟨0⟩ : Symbol) ∈ cell := Std.TreeMap.mem_iff_contains.mpr (Option.some.inj hkey')
  obtain ⟨b, m, hback, hscore, -, hfirst⟩ := hentries ⟨0⟩ hmem
  have hearly : ((repeating.bestParse ["a", "a", "a"]).bind fun c =>
      c.backpointer ⟨0, 3⟩ ⟨0⟩).toOption = some (some (.binary 1 ⟨0⟩ ⟨0⟩)) := by decide +kernel
  rw [hc] at hearly
  have hearly' : (c.backpointer ⟨0, 3⟩ ⟨0⟩).toOption = some (some (.binary 1 ⟨0⟩ ⟨0⟩)) := hearly
  rw [hback] at hearly'
  obtain rfl : b = .binary 1 ⟨0⟩ ⟨0⟩ := Option.some.inj (Option.some.inj hearly')
  exact ⟨built_repeating, hfits, c, m, hc, hback, hscore, hfirst⟩

end Grammar

end ChartParsing
