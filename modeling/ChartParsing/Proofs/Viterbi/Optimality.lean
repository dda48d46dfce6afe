import ChartParsing.Proofs.Derivation
import ChartParsing.Proofs.Viterbi.Cells

/-!
# Scores are optimal

No derivation tree of a symbol over a span has a greater value than the score of the symbol there.
The proof is by induction on derivation trees: the entries of the two parts are at least as good as
the two parts of the tree, a product grows with its factors, and the cell keeps a best candidate.

* `exists_entry_of_isDerivation`: the induction.
-/

namespace ChartParsing.Grammar

open Binary64

variable {g : Grammar}

/-- **The entry of a span is at least as good as any derivation tree over it.** -/
theorem exists_entry_of_isDerivation (words : List String) (h : g.Consistent) {t : Tree}
    (ht : g.IsDerivation t) : t.span.stop ≤ words.length → t.words = t.span.slice words →
      ∃ v s e, g.value? t = some v ∧ g.symbol? t.label = some s ∧
        (g.viterbiCell words t.span).find? s = some e ∧ InUnit e.score ∧
          v.toBits.toNat ≤ e.score.toBits.toNat := by
  induction ht with
  | @lexical x w p i hrule =>
    intro hstop hwords
    have hi : i < words.length := hstop
    have hword : [w] = Span.slice ⟨i, i + 1⟩ words := hwords
    rw [Span.slice_word hi] at hword
    obtain rfl : w = words[i] := List.singleton_inj.mp hword
    obtain ⟨s, hs⟩ := h.known _ hrule x List.mem_cons_self
    obtain ⟨e, he, hunit, hle⟩ :=
      exists_entry_of_offered h (Nat.lt_succ_self i) hstop (.word hi hrule hs)
    exact ⟨_, s, e, value?_word (h.weight?_eq hrule), hs, he, hunit, hle⟩
  | @binary x p l r i k j hrule hik hkj hl hr hderivesLeft hderivesRight ihl ihr =>
    intro hstop hwords
    have hj : j ≤ words.length := hstop
    have hsplit : l.words ++ r.words = Span.slice ⟨i, j⟩ words := by
      rw [← Tree.words_pair x ⟨i, j⟩]
      exact hwords
    have hlength : l.words.length = k - i := by
      rw [hderivesLeft.length_words.2, hl]
    obtain ⟨hleft, hright⟩ := Span.slice_of_append_eq (Nat.le_of_lt hik) (Nat.le_of_lt hkj) hj
      hlength hsplit
    rw [hl] at ihl
    rw [hr] at ihr
    have hk : k ≤ words.length := Nat.le_trans (Nat.le_of_lt hkj) hj
    obtain ⟨a, b, el, ha, hb, hel, hunitLeft, hleLeft⟩ := ihl hk hleft
    obtain ⟨a', c, er, ha', hc, her, hunitRight, hleRight⟩ := ihr hj hright
    obtain ⟨s, hs⟩ := h.known _ hrule x List.mem_cons_self
    obtain ⟨e, he, hunit, hle⟩ := exists_entry_of_offered h (Nat.lt_trans hik hkj) hj
      (.split hik hkj hrule hs hb hc hel her)
    have hweight : InUnit (Rule.weightOf p) := h.inUnit_weightOf hrule
    have hproduct := toNat_mul_mono (hweight.mul hunitLeft) hunitRight
      (toNat_mul_mono hweight hunitLeft (Nat.le_refl _) hleLeft) hleRight
    exact ⟨_, s, e, value?_split (h.weight?_eq hrule) ha ha', hs, he, hunit,
      Nat.le_trans hproduct hle⟩

/-- **No derivation tree is better than the score.**  For every grammar and every sentence whose
chart has a size, the best parse succeeds; a derivation tree over a span has a value, the chart has
a score for its non-terminal, and the value is at most the score. -/
theorem value_le_score {words : List String} (h : g.Built)
    (hn : Table.Fits words.length) :
    ∃ c, g.bestParse words = .ok c ∧ ∀ i j t, i < j → j ≤ words.length →
      g.IsDerivation t → t.span = ⟨i, j⟩ → t.words = Span.slice ⟨i, j⟩ words →
        ∃ s v m, g.symbol? t.label = some s ∧ g.value? t = some v ∧
          c.score ⟨i, j⟩ s = .ok (some m) ∧ v ≤ m := by
  obtain ⟨c, hc, hchart⟩ := bestParse_eq_ok g hn
  refine ⟨c, hc, ?_⟩
  intro i j t hij hj ht hspan hwords
  obtain ⟨v, s, e, hv, hs, he, hunit, hle⟩ :=
    exists_entry_of_isDerivation words h.consistent ht (by rw [hspan]; exact hj)
      (by rw [hspan]; exact hwords)
  rw [hspan] at he
  refine ⟨s, v, e.score, hs, hv, ?_, ?_⟩
  · rw [hchart.score_eq ⟨hij, hj⟩, he]
    rfl
  · have hunit' : InUnit v := Nat.le_trans hle hunit
    exact (le_iff hunit'.lt_infinityBits hunit.lt_infinityBits).mpr hle

/-- The derivation tree of `a a`. -/
def repeatingTree : Tree :=
  .branch "S" ⟨0, 2⟩ [.branch "S" ⟨0, 1⟩ [.leaf "a" ⟨0, 1⟩], .branch "S" ⟨1, 2⟩ [.leaf "a" ⟨1, 2⟩]]

theorem isDerivation_repeatingTree : repeating.IsDerivation repeatingTree := by
  have hword : Rule.lexical "S" "a" (some half) ∈ repeating.rules := by simp [rules_repeating]
  have hpair : Rule.binary "S" "S" "S" (some half) ∈ repeating.rules := by simp [rules_repeating]
  exact .binary hpair (by decide) (by decide) rfl rfl (.lexical hword) (.lexical hword)

/-- The score of `S` over `a a` is at least one eighth. -/
theorem repeating_score : repeating.Built ∧ Table.Fits 2 ∧
    ∃ c s m, repeating.bestParse ["a", "a"] = .ok c ∧ repeating.symbol? "S" = some s ∧
      c.score ⟨0, 2⟩ s = .ok (some m) ∧ 0.125 ≤ m := by
  have hfits : Table.Fits ["a", "a"].length := by decide
  obtain ⟨c, hc, htrees⟩ := value_le_score built_repeating hfits
  obtain ⟨s, v, m, hs, hv, hm, hle⟩ := htrees 0 2 repeatingTree (by decide) (by decide)
    isDerivation_repeatingTree rfl rfl
  have hvalue : repeating.value? repeatingTree = some 0.125 := by decide
  obtain rfl : v = 0.125 := Option.some.inj (hv.symm.trans hvalue)
  exact ⟨built_repeating, hfits, c, s, m, hc, hs, hm, hle⟩

end ChartParsing.Grammar
