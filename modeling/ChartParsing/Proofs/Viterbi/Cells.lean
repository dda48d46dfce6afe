import ChartParsing.Proofs.Binary64.Range
import ChartParsing.Proofs.Grammar.Lookup
import ChartParsing.Proofs.Viterbi.Tables

/-!
# The cells of the Viterbi chart

`Offered` says which candidates a span has: a lexical rule gives one for the word, a binary rule one
for each split and the entries of its two parts.  A cell holds a candidate for every symbol that has
one, with the greatest score.

* `Charts`, `bestParse_eq_ok`: the two tables of the chart hold the two maps of each cell of the
  recursion over spans.
* `offered_of_find?`, `exists_entry_of_offered`: **an entry is the best candidate**.
* `Consistent.entry_induction`: induction on entries, from the words upwards.
* `inUnit_of_offered`: scores lie between zero and one.
-/

namespace ChartParsing.Grammar

open Binary64

variable {g : Grammar} {words : List String}

/-- The chart was made by the grammar for the words: its two tables hold the scores and the
backpointers of the recursion. -/
structure Charts (g : Grammar) (words : List String) (c : ViterbiChart) : Prop where
  grammar_eq : c.grammar = g
  words_eq : c.words = words
  cell_eq : ∀ s : Span, s.Within words.length → c.cell s = .ok (g.viterbiCell words s).scores
  back_eq : ∀ s : Span, s.Within words.length → c.back.get s = .ok (g.viterbiCell words s).back

variable {c : ViterbiChart}

theorem Charts.backpointer_eq (hc : g.Charts words c) {span : Span}
    (hspan : span.Within words.length) (s : Symbol) :
    c.backpointer span s = .ok (((g.viterbiCell words span).find? s).map Entry.back) := by
  rw [← (inStep_viterbiCell g words span).back_eq]
  exact bind_eq_ok.mpr ⟨_, hc.back_eq span hspan, rfl⟩

theorem Charts.score_eq (hc : g.Charts words c) {span : Span} (hspan : span.Within words.length)
    (s : Symbol) :
    c.score span s = .ok (((g.viterbiCell words span).find? s).map Entry.score) := by
  rw [← (inStep_viterbiCell g words span).scores_eq]
  exact bind_eq_ok.mpr ⟨_, hc.cell_eq span hspan, rfl⟩

theorem Charts.score_eq_some_iff (hc : g.Charts words c) {span : Span}
    (hspan : span.Within words.length) {s : Symbol} {m : Float} :
    c.score span s = .ok (some m) ↔
      ∃ e, (g.viterbiCell words span).find? s = some e ∧ e.score = m := by
  rw [hc.score_eq hspan, Except.ok.injEq, Option.map_eq_some_iff]

theorem Charts.backpointer_eq_some_iff (hc : g.Charts words c) {span : Span}
    (hspan : span.Within words.length) {s : Symbol} {b : Backpointer} :
    c.backpointer span s = .ok (some b) ↔
      ∃ e, (g.viterbiCell words span).find? s = some e ∧ e.back = b := by
  rw [hc.backpointer_eq hspan, Except.ok.injEq, Option.map_eq_some_iff]

theorem Charts.name_eq (hc : g.Charts words c) {x : String} {s : Symbol}
    (hx : g.symbol? x = some s) : c.grammar.name s = .ok x := by
  rw [hc.grammar_eq, name, symbol?_eq_some_iff.mp hx]

theorem Charts.size_eq (hc : g.Charts words c) : c.size = words.length :=
  congrArg List.length hc.words_eq

theorem Charts.bestProbability_nil (hc : g.Charts [] c) : c.bestProbability = .ok none := by
  rw [ViterbiChart.bestProbability, ViterbiChart.probability, ViterbiChart.isEmpty, hc.size_eq]
  rfl

theorem Charts.bestProbability_eq (hc : g.Charts words c) (hne : words ≠ []) :
    c.bestProbability =
      .ok (((g.viterbiCell words ⟨0, words.length⟩).find? g.start).map Entry.score) := by
  have hpos : 0 < words.length := List.length_pos_iff.mpr hne
  have hnonempty : c.isEmpty = false := by
    rw [ViterbiChart.isEmpty, hc.size_eq]
    exact decide_eq_false (Nat.ne_of_gt hpos)
  rw [ViterbiChart.bestProbability, ViterbiChart.probability, hnonempty, hc.size_eq,
    hc.grammar_eq]
  exact hc.score_eq ⟨hpos, Nat.le_refl _⟩ g.start

theorem bestParse_eq_ok (g : Grammar) (hn : Table.Fits words.length) :
    ∃ c, g.bestParse words = .ok c ∧ g.Charts words c := by
  obtain ⟨t, ht, -, hcells⟩ := Table.fill_eq_ok g.cellOfWord g.cellOfParts hn
  have htables : g.fillTables words = .ok (.ofCells t) := by
    rw [fillTables_eq, ht]
    rfl
  refine ⟨_, bind_eq_ok.mpr ⟨_, htables, rfl⟩, rfl, rfl, ?_, ?_⟩
  · intro s hs
    exact (Table.get_map Cell.scores t s).trans (congrArg (Except.map Cell.scores) (hcells s hs))
  · intro s hs
    exact (Table.get_map Cell.back t s).trans (congrArg (Except.map Cell.back) (hcells s hs))

/-! ## Candidates -/

/-- The entry is a candidate for the symbol over the span. -/
inductive Offered (g : Grammar) (words : List String) : Span → Symbol → Entry → Prop
  | word {i : Nat} {x : String} {p : Option Probability} {s : Symbol} (hi : i < words.length) :
      Rule.lexical x words[i] p ∈ g.rules → g.symbol? x = some s →
        Offered g words ⟨i, i + 1⟩ s ⟨Rule.weightOf p, .lexical⟩
  | split {i k j : Nat} {x y z : String} {p : Option Probability} {s b c : Symbol} {l r : Entry} :
      i < k → k < j → Rule.binary x y z p ∈ g.rules → g.symbol? x = some s →
        g.symbol? y = some b → g.symbol? z = some c →
          (g.viterbiCell words ⟨i, k⟩).find? b = some l →
            (g.viterbiCell words ⟨k, j⟩).find? c = some r →
            Offered g words ⟨i, j⟩ s ⟨Rule.weightOf p * l.score * r.score, .binary k b c⟩

theorem mem_candidates_iff {splits : List (Table.Split Scores)} {s : Symbol} {e : Entry} :
    (s, e) ∈ g.candidates splits ↔ ∃ p ∈ splits, ∃ b l, p.left[b]? = some l ∧
      ∃ c r, p.right[c]? = some r ∧ ∃ w, (s, w) ∈ g.binary b c ∧
        e = ⟨w * l * r, .binary p.position b c⟩ := by
  simp only [candidates, List.mem_flatMap, List.mem_map]
  constructor
  · rintro ⟨p, hp, ⟨b, l⟩, hl, ⟨c, r⟩, hr, ⟨a, w⟩, ha, heq⟩
    cases heq
    exact ⟨p, hp, b, l, Std.TreeMap.mem_toList_iff_getElem?_eq_some.mp hl, c, r,
      Std.TreeMap.mem_toList_iff_getElem?_eq_some.mp hr, w, ha, rfl⟩
  · rintro ⟨p, hp, b, l, hl, c, r, hr, w, ha, rfl⟩
    exact ⟨p, hp, (b, l), Std.TreeMap.mem_toList_iff_getElem?_eq_some.mpr hl, (c, r),
      Std.TreeMap.mem_toList_iff_getElem?_eq_some.mpr hr, (s, w), ha, rfl⟩

/-- The candidates of a span of two words or more, in their order. -/
def spanCandidates (g : Grammar) (words : List String) (i j : Nat) : List (Symbol × Entry) :=
  g.candidates <| (List.range' (i + 1) (j - i - 1)).map fun k =>
    ⟨k, (g.viterbiCell words ⟨i, k⟩).scores, (g.viterbiCell words ⟨k, j⟩).scores⟩

theorem viterbiCell_of_lt (g : Grammar) (words : List String) {i j : Nat} (hij : i + 1 < j) :
    g.viterbiCell words ⟨i, j⟩ = .ofCandidates (g.spanCandidates words i j) := by
  rw [viterbiCell, Table.byParts_of_lt hij, cellOfParts, List.map_map]
  rfl

/-- A score of a part is that of an entry. -/
theorem getElem?_scores_eq_some_iff {span : Span} {s : Symbol} {m : Float} :
    (g.viterbiCell words span).scores[s]? = some m ↔
      ∃ e, (g.viterbiCell words span).find? s = some e ∧ e.score = m := by
  rw [(inStep_viterbiCell g words span).scores_eq, Option.map_eq_some_iff]

theorem mem_spanCandidates_iff (words : List String) (h : g.Consistent) {i j : Nat}
    (hij : i + 1 < j) {s : Symbol} {e : Entry} :
    (s, e) ∈ g.spanCandidates words i j ↔ g.Offered words ⟨i, j⟩ s e := by
  rw [spanCandidates, mem_candidates_iff]
  constructor
  · rintro ⟨q, hq, b, m, hm, c, m', hm', w, ha, rfl⟩
    obtain ⟨k, hk, rfl⟩ := List.mem_map.mp hq
    obtain ⟨l, hl, rfl⟩ := getElem?_scores_eq_some_iff.mp hm
    obtain ⟨r, hr, rfl⟩ := getElem?_scores_eq_some_iff.mp hm'
    have hbetween : i < k ∧ k < j := by
      have := List.mem_range'_1.mp hk
      omega
    obtain ⟨x, y, z, p, hrule, hx, hy, hz, rfl⟩ := h.mem_binary_iff.mp ha
    exact .split hbetween.1 hbetween.2 hrule hx hy hz hl hr
  · intro ho
    cases ho with
    | word _ _ _ => exact absurd hij (Nat.lt_irrefl _)
    | @split _ k _ x y z p _ b c l r hik hkj hrule hx hy hz hl hr =>
      refine ⟨_, List.mem_map.mpr ⟨k, List.mem_range'_1.mpr (by omega), rfl⟩, b, l.score,
        getElem?_scores_eq_some_iff.mpr ⟨l, hl, rfl⟩, c, r.score,
        getElem?_scores_eq_some_iff.mpr ⟨r, hr, rfl⟩, Rule.weightOf p,
        h.mem_binary_iff.mpr ⟨x, y, z, p, hrule, hx, hy, hz, rfl⟩, rfl⟩

/-- No parent of a word is given twice, so what is found for a word are the best candidates. -/
theorem Consistent.cellOfWord_eq (h : g.Consistent) (w : String) :
    g.cellOfWord w = .ofCandidates ((g.lexical w).map fun p => (p.1, ⟨p.2, .lexical⟩)) := by
  have hnodup : ((g.lexical w).map Prod.fst).Nodup :=
    nodup_of_forall₂ (h.forall₂_lexical w)
      (h.distinct.parents_ne fun _ _ => Rule.items_eq_of_hasWord)
  rw [Cell.ofCandidates, ← Cell.foldl_record (by rwa [List.map_map]) (by simp [Cell.empty]),
    cellOfWord, List.foldl_map]

/-- **A cell is made from the candidates of its span.** -/
theorem viterbiCell_eq (words : List String) (h : g.Consistent) {i j : Nat} (hij : i < j)
    (hj : j ≤ words.length) :
    ∃ cs, g.viterbiCell words ⟨i, j⟩ = .ofCandidates cs ∧
      ∀ s e, (s, e) ∈ cs ↔ g.Offered words ⟨i, j⟩ s e := by
  rcases Nat.lt_or_ge (i + 1) j with hlong | hshort
  · exact ⟨_, viterbiCell_of_lt g words hlong, fun _ _ => mem_spanCandidates_iff words h hlong⟩
  · obtain rfl : j = i + 1 := by omega
    refine ⟨_, (Table.byParts_word (by omega)).trans (h.cellOfWord_eq _), ?_⟩
    intro s e
    rw [List.mem_map]
    constructor
    · rintro ⟨⟨a, w⟩, ha, heq⟩
      cases heq
      obtain ⟨x, p, hrule, hx, rfl⟩ := h.mem_lexical_iff.mp ha
      exact .word _ hrule hx
    · intro ho
      cases ho with
      | @word _ x p _ hi hrule hx =>
        exact ⟨(s, Rule.weightOf p), h.mem_lexical_iff.mpr ⟨x, p, hrule, hx, rfl⟩, rfl⟩
      | split hik hkj => omega

theorem offered_of_find? (h : g.Consistent) {i j : Nat} (hij : i < j) (hj : j ≤ words.length)
    {s : Symbol} {e : Entry} (he : (g.viterbiCell words ⟨i, j⟩).find? s = some e) :
    g.Offered words ⟨i, j⟩ s e := by
  obtain ⟨cs, hcell, hoffered⟩ := viterbiCell_eq words h hij hj
  rw [hcell, Cell.find?_ofCandidates] at he
  exact (hoffered s e).mp (Cell.mem_candidatesFor.mp (Cell.mem_of_best_eq_some he))

/-- **Induction on entries**: a property of the entries of words that a split passes on, from the
entries of its two parts to the entry it gives, is one of all entries. -/
@[elab_as_elim]
theorem Consistent.entry_induction (h : g.Consistent) {P : Nat → Nat → Symbol → Entry → Prop}
    (word : ∀ {i : Nat} {x : String} {p : Option Probability} {s : Symbol} (hi : i < words.length),
      Rule.lexical x words[i] p ∈ g.rules → g.symbol? x = some s →
        (g.viterbiCell words ⟨i, i + 1⟩).find? s = some ⟨Rule.weightOf p, .lexical⟩ →
          P i (i + 1) s ⟨Rule.weightOf p, .lexical⟩)
    (split : ∀ {i k j : Nat} {x y z : String} {p : Option Probability} {s b c : Symbol}
      {l r : Entry}, i < k → k < j → j ≤ words.length → Rule.binary x y z p ∈ g.rules →
        g.symbol? x = some s → g.symbol? y = some b → g.symbol? z = some c →
          (g.viterbiCell words ⟨i, j⟩).find? s =
              some ⟨Rule.weightOf p * l.score * r.score, .binary k b c⟩ →
            P i k b l → P k j c r →
              P i j s ⟨Rule.weightOf p * l.score * r.score, .binary k b c⟩)
    {i j : Nat} (hij : i < j) (hj : j ≤ words.length) {s : Symbol} {e : Entry}
    (he : (g.viterbiCell words ⟨i, j⟩).find? s = some e) : P i j s e := by
  obtain ⟨n, hn⟩ : ∃ n, j - i = n := ⟨_, rfl⟩
  induction n using Nat.strongRecOn generalizing i j s e with
  | ind n ih =>
    cases offered_of_find? h hij hj he with
    | word hi hrule hx => exact word hi hrule hx he
    | @split _ k _ x y z p _ b c l r hik hkj hrule hx hy hz hl hr =>
      exact split hik hkj hj hrule hx hy hz he (ih (k - i) (by omega) hik (by omega) hl rfl)
        (ih (j - k) (by omega) hkj hj hr rfl)

theorem Offered.back_of_word {i : Nat} {s : Symbol} {e : Entry}
    (h : g.Offered words ⟨i, i + 1⟩ s e) : e.back = .lexical := by
  cases h with
  | word _ _ _ => rfl
  | split hik hkj => omega

/-! ## Scores -/

theorem Consistent.inUnit_weightOf (h : g.Consistent) {r : Rule} (hr : r ∈ g.rules) :
    InUnit (Rule.weightOf r.prob) := by
  cases hp : r.prob with
  | none => exact Nat.le_of_eq toNat_toBits_one
  | some p =>
    obtain ⟨-, hle⟩ := bits_of_isInRange (h.inRange r hr p hp)
    show p.value.toBits.toNat ≤ oneBits
    rwa [toBits_value (Nat.lt_of_le_of_lt hle (by decide))]

/-- **Scores lie between zero and one.** -/
theorem inUnit_of_offered (h : g.Consistent) {i j : Nat} (hj : j ≤ words.length) {s : Symbol}
    {e : Entry} (he : g.Offered words ⟨i, j⟩ s e) : InUnit e.score := by
  obtain ⟨n, hn⟩ : ∃ n, j - i = n := ⟨_, rfl⟩
  induction n using Nat.strongRecOn generalizing i j s e with
  | ind n ih =>
    cases he with
    | word _ hrule _ => exact h.inUnit_weightOf hrule
    | @split _ k _ x y z p _ b c l r hik hkj hrule _ _ _ hl hr =>
      have hleft : InUnit l.score :=
        ih (k - i) (by omega) (by omega) (offered_of_find? h hik (by omega) hl) rfl
      have hright : InUnit r.score :=
        ih (j - k) (by omega) hj (offered_of_find? h hkj hj hr) rfl
      exact ((h.inUnit_weightOf hrule).mul hleft).mul hright

/-- **No candidate is better than the entry.** -/
theorem exists_entry_of_offered (h : g.Consistent) {i j : Nat} (hij : i < j)
    (hj : j ≤ words.length) {s : Symbol} {e : Entry} (he : g.Offered words ⟨i, j⟩ s e) :
    ∃ b, (g.viterbiCell words ⟨i, j⟩).find? s = some b ∧ InUnit b.score ∧
      e.score.toBits.toNat ≤ b.score.toBits.toNat := by
  obtain ⟨cs, hcell, hoffered⟩ := viterbiCell_eq words h hij hj
  have hmem : e ∈ Cell.candidatesFor s cs := Cell.mem_candidatesFor.mpr ((hoffered s e).mpr he)
  have hunit : ∀ e ∈ Cell.candidatesFor s cs, InUnit e.score := fun e he =>
    inUnit_of_offered h hj ((hoffered s e).mp (Cell.mem_candidatesFor.mp he))
  obtain ⟨b, hb⟩ := Cell.exists_best hmem
  refine ⟨b, ?_, hunit b (Cell.mem_of_best_eq_some hb), Cell.score_le_of_best_eq_some hunit hb hmem⟩
  rw [hcell, Cell.find?_ofCandidates, hb]

end ChartParsing.Grammar
