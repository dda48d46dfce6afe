import ChartParsing.Proofs.Derivation
import ChartParsing.Proofs.Grammar.Built
import ChartParsing.Proofs.Table.Recursion
import ChartParsing.Recognition

/-!
# The recognition chart holds what derives

The cell of a span is compared with `Derives` by strong induction on the length of the span: a cell
of two words or more is made from the cells of shorter spans, and the derivations of a longer list
of words are those of its two parts.

* `derives_slice_iff`: what derives a longer span, by a rule and a split.
* `mem_byParts_iff`: the recursion over spans holds the symbols that derive.
* `recognize_cells`, `accepts_cells`: the chart and the answer come from this recursion.
* `recognize_eq_ok`, `accepts_eq_ok`: recognition succeeds, and its cells and its answer are right.
-/

namespace ChartParsing.Grammar

variable {g : Grammar} {words : List String}

/-! ## Derivations of one word and of a span -/

theorem derives_word_iff {x w : String} :
    g.Derives x [w] ↔ ∃ p, Rule.lexical x w p ∈ g.rules := by
  constructor
  · intro h
    generalize hws : [w] = ws at h
    cases h with
    | word hr =>
      cases hws
      exact ⟨_, hr⟩
    | @split _ _ _ _ u v _ hu hv _ _ =>
      have hlen := congrArg List.length hws
      have hu' := List.length_pos_iff.mpr hu
      have hv' := List.length_pos_iff.mpr hv
      simp only [List.length_append, List.length_singleton] at hlen
      omega
  · rintro ⟨p, hr⟩
    exact .word hr

/-- A span of two words or more is derived by a binary rule at one of its splits. -/
theorem derives_slice_iff {x : String} {i j : Nat} (hij : i + 1 < j) (hj : j ≤ words.length) :
    g.Derives x (Span.slice ⟨i, j⟩ words) ↔ ∃ k y z p, i < k ∧ k < j ∧
      Rule.binary x y z p ∈ g.rules ∧ g.Derives y (Span.slice ⟨i, k⟩ words) ∧
        g.Derives z (Span.slice ⟨k, j⟩ words) := by
  have hlen : (Span.slice ⟨i, j⟩ words).length = j - i := Span.length_slice hj
  constructor
  · intro h
    generalize hws : Span.slice ⟨i, j⟩ words = ws at h
    cases h with
    | word _ =>
      rw [hws, List.length_singleton] at hlen
      omega
    | @split _ y z p u v hr hu hv hy hz =>
      rw [hws, List.length_append] at hlen
      have hu' := List.length_pos_iff.mpr hu
      have hv' := List.length_pos_iff.mpr hv
      obtain ⟨k, hk⟩ : ∃ k, k = i + u.length := ⟨_, rfl⟩
      obtain ⟨rfl, rfl⟩ := Span.slice_of_append_eq (k := k) (by omega) (by omega) hj
        (by omega) hws.symm
      exact ⟨k, y, z, p, by omega, by omega, hr, hy, hz⟩
  · rintro ⟨k, y, z, p, hik, hkj, hr, hy, hz⟩
    have hleft : (Span.slice ⟨i, k⟩ words).length = k - i := Span.length_slice (by omega)
    have hright : (Span.slice ⟨k, j⟩ words).length = j - k := Span.length_slice hj
    rw [← Span.slice_append (Nat.le_of_lt hik) (Nat.le_of_lt hkj)]
    refine .split hr ?_ ?_ hy hz
    · exact List.ne_nil_of_length_pos (by omega)
    · exact List.ne_nil_of_length_pos (by omega)

/-! ## Cells -/

theorem mem_symbolsOfWord {w : String} {s : Symbol} :
    s ∈ g.symbolsOfWord w ↔ ∃ a ∈ g.lexical w, a.1 = s := by
  rw [symbolsOfWord, Std.TreeSet.mem_iff_contains, Std.TreeSet.contains_ofList,
    List.contains_iff_mem, List.mem_map]

theorem mem_symbolsOfSplits {splits : List (Table.Split SymbolSet)} {s : Symbol} :
    s ∈ g.symbolsOfSplits splits ↔
      ∃ p ∈ splits, ∃ b ∈ p.left, ∃ c ∈ p.right, ∃ a ∈ g.binary b c, a.1 = s := by
  rw [symbolsOfSplits, Std.TreeSet.mem_iff_contains, Std.TreeSet.contains_ofList,
    List.contains_iff_mem]
  simp only [List.mem_flatMap, List.mem_map, Std.TreeSet.mem_toList]

/-- **The recursion over spans holds the symbols that derive.** -/
theorem mem_byParts_iff (h : g.Consistent) (s : Symbol) {i j : Nat} (hij : i < j)
    (hj : j ≤ words.length) :
    s ∈ Table.byParts g.symbolsOfWord g.symbolsOfSplits words ⟨i, j⟩ ↔
      ∃ x, g.symbol? x = some s ∧ g.Derives x (Span.slice ⟨i, j⟩ words) := by
  obtain ⟨n, hn⟩ : ∃ n, j - i = n := ⟨_, rfl⟩
  induction n using Nat.strongRecOn generalizing i j s with
  | ind n ih =>
    rcases Nat.lt_or_ge (i + 1) j with hlong | hshort
    · -- two words or more: the parts of each split have smaller lengths
      have hparts : ∀ k, i < k → k < j →
          (∀ b, b ∈ Table.byParts g.symbolsOfWord g.symbolsOfSplits words ⟨i, k⟩ ↔
            ∃ y, g.symbol? y = some b ∧ g.Derives y (Span.slice ⟨i, k⟩ words)) ∧
          (∀ c, c ∈ Table.byParts g.symbolsOfWord g.symbolsOfSplits words ⟨k, j⟩ ↔
            ∃ z, g.symbol? z = some c ∧ g.Derives z (Span.slice ⟨k, j⟩ words)) :=
        fun k hik hkj => ⟨fun b => ih (k - i) (by omega) b hik (by omega) rfl,
          fun c => ih (j - k) (by omega) c hkj hj rfl⟩
      rw [Table.byParts_of_lt hlong, mem_symbolsOfSplits]
      constructor
      · rintro ⟨p, hp, b, hb, c, hc, ⟨a, w⟩, ha, rfl⟩
        obtain ⟨k, hk, rfl⟩ := List.mem_map.mp hp
        have hk' := List.mem_range'_1.mp hk
        obtain ⟨hleft, hright⟩ := hparts k (by omega) (by omega)
        obtain ⟨x, y, z, q, hr, hx, hy, hz, -⟩ := h.mem_binary_iff.mp ha
        obtain ⟨y', hy', hderivesLeft⟩ := (hleft b).mp hb
        obtain ⟨z', hz', hderivesRight⟩ := (hright c).mp hc
        obtain rfl := symbol?_injective hy hy'
        obtain rfl := symbol?_injective hz hz'
        exact ⟨x, hx, (derives_slice_iff hlong hj).mpr
          ⟨k, y, z, q, by omega, by omega, hr, hderivesLeft, hderivesRight⟩⟩
      · rintro ⟨x, hx, hderives⟩
        obtain ⟨k, y, z, q, hik, hkj, hr, hderivesLeft, hderivesRight⟩ :=
          (derives_slice_iff hlong hj).mp hderives
        obtain ⟨hleft, hright⟩ := hparts k hik hkj
        obtain ⟨b, hb⟩ := h.known _ hr y (by simp [Rule.binary, Rule.names])
        obtain ⟨c, hc⟩ := h.known _ hr z (by simp [Rule.binary, Rule.names])
        refine ⟨_, List.mem_map.mpr ⟨k, List.mem_range'_1.mpr (by omega), rfl⟩,
          b, (hleft b).mpr ⟨y, hb, hderivesLeft⟩, c, (hright c).mpr ⟨z, hc, hderivesRight⟩,
          (s, Rule.weightOf q), ?_, rfl⟩
        exact h.mem_binary_iff.mpr ⟨x, y, z, q, hr, hx, hb, hc, rfl⟩
    · -- one word
      obtain rfl : j = i + 1 := by omega
      rw [Table.byParts_word (by omega), Span.slice_word (by omega), mem_symbolsOfWord]
      constructor
      · rintro ⟨⟨a, w⟩, ha, rfl⟩
        obtain ⟨x, p, hr, hx, -⟩ := h.mem_lexical_iff.mp ha
        exact ⟨x, hx, derives_word_iff.mpr ⟨p, hr⟩⟩
      · rintro ⟨x, hx, hderives⟩
        obtain ⟨p, hr⟩ := derives_word_iff.mp hderives
        exact ⟨(s, Rule.weightOf p), h.mem_lexical_iff.mpr ⟨x, p, hr, hx, rfl⟩, rfl⟩

/-! ## Charts -/

/-- Recognition succeeds, and its cells are those of the recursion over spans. -/
theorem recognize_cells (g : Grammar) (hn : Table.Fits words.length) :
    ∃ chart, g.recognize words = .ok chart ∧ chart.grammar = g ∧ chart.size = words.length ∧
      ∀ span : Span, span.Within words.length →
        chart.cell span = .ok (Table.byParts g.symbolsOfWord g.symbolsOfSplits words span) := by
  obtain ⟨t, ht, hsize, hcells⟩ :=
    Table.fill_eq_ok g.symbolsOfWord g.symbolsOfSplits hn
  exact ⟨⟨g, t⟩, bind_eq_ok.mpr ⟨t, ht, rfl⟩, rfl, hsize, hcells⟩

theorem recognize_eq_ok (h : g.Consistent) (hn : Table.Fits words.length) :
    ∃ chart, g.recognize words = .ok chart ∧
      ∀ i j, i < j → j ≤ words.length → ∃ cell, chart.cell ⟨i, j⟩ = .ok cell ∧
        ∀ x s, g.symbol? x = some s → (s ∈ cell ↔ g.Derives x (Span.slice ⟨i, j⟩ words)) := by
  obtain ⟨chart, hchart, -, -, hcells⟩ := recognize_cells g hn
  refine ⟨chart, hchart, ?_⟩
  intro i j hij hj
  refine ⟨_, hcells ⟨i, j⟩ ⟨hij, hj⟩, ?_⟩
  intro x s hx
  rw [mem_byParts_iff h s hij hj]
  constructor
  · rintro ⟨x', hx', hderives⟩
    obtain rfl := symbol?_injective hx hx'
    exact hderives
  · intro hderives
    exact ⟨x, hx, hderives⟩

/-- A sentence is accepted if it has words and the start symbol is in the cell of the whole. -/
theorem accepts_cells (g : Grammar) (hn : Table.Fits words.length) :
    ∃ b, g.accepts words = .ok b ∧ (b = true ↔ words ≠ [] ∧
      g.start ∈ Table.byParts g.symbolsOfWord g.symbolsOfSplits words ⟨0, words.length⟩) := by
  obtain ⟨chart, hchart, hgrammar, hsize, hcells⟩ := recognize_cells g hn
  rcases Nat.eq_zero_or_pos words.length with hzero | hpos
  · refine ⟨false, bind_eq_ok.mpr ⟨chart, hchart, ?_⟩, ?_⟩
    · rw [RecognitionChart.accepts, RecognitionChart.derives, RecognitionChart.isEmpty, hsize,
        hzero]
      rfl
    · have hnil := List.eq_nil_iff_length_eq_zero.mpr hzero
      simp [hnil]
  · have hcell := hcells ⟨0, words.length⟩ ⟨hpos, Nat.le_refl _⟩
    generalize Table.byParts g.symbolsOfWord g.symbolsOfSplits words ⟨0, words.length⟩ = cell
      at hcell ⊢
    refine ⟨cell.contains g.start, bind_eq_ok.mpr ⟨chart, hchart, ?_⟩, ?_⟩
    · have hnonempty : chart.isEmpty = false := by
        rw [RecognitionChart.isEmpty, hsize]
        exact decide_eq_false (Nat.ne_of_gt hpos)
      rw [RecognitionChart.accepts, RecognitionChart.derives, hnonempty, hsize, hcell, hgrammar]
      rfl
    · rw [← Std.TreeSet.mem_iff_contains]
      exact ⟨fun hmem => ⟨List.ne_nil_of_length_pos hpos, hmem⟩, And.right⟩

theorem accepts_eq_ok (h : g.Consistent) (hn : Table.Fits words.length) :
    ∃ b, g.accepts words = .ok b ∧ (b = true ↔ words ≠ [] ∧ g.Derives g.startName words) := by
  obtain ⟨b, haccepts, hb⟩ := accepts_cells g hn
  refine ⟨b, haccepts, hb.trans (and_congr_right fun hne => ?_)⟩
  rw [mem_byParts_iff h g.start (List.length_pos_iff.mpr hne) (Nat.le_refl _), Span.slice_full]
  constructor
  · rintro ⟨x, hx, hderives⟩
    obtain rfl := symbol?_injective symbol?_startName hx
    exact hderives
  · intro hderives
    exact ⟨_, symbol?_startName, hderives⟩

/-- **Recognition is sound and complete.**  For every grammar and every sentence whose chart has a
size, recognition succeeds; a non-terminal is in the cell of a span just when it derives the words
of the span, and a sentence is accepted just when it has words and the start symbol derives it. -/
theorem recognize_iff_derives (h : g.Built) (hn : Table.Fits words.length) :
    (∃ chart, g.recognize words = .ok chart ∧
      ∀ i j, i < j → j ≤ words.length → ∃ cell, chart.cell ⟨i, j⟩ = .ok cell ∧
        ∀ x s, g.symbol? x = some s → (s ∈ cell ↔ g.Derives x (Span.slice ⟨i, j⟩ words))) ∧
    ∃ b, g.accepts words = .ok b ∧ (b = true ↔ words ≠ [] ∧ g.Derives g.startName words) := by
  obtain ⟨chart, hchart, hcells⟩ := recognize_eq_ok h.consistent hn
  exact ⟨⟨chart, hchart, hcells⟩, accepts_eq_ok h.consistent hn⟩

/-- Two words are recognised by `S -> S S | a`, and the empty sentence is not. -/
theorem repeating_recognizes : repeating.Built ∧ Table.Fits 2 ∧ Table.Fits 0 ∧
    repeating.accepts ["a", "a"] = .ok true ∧ repeating.accepts [] = .ok false := by
  have hfits : Table.Fits 2 := by decide
  have hempty : Table.Fits 0 := by decide
  refine ⟨built_repeating, hfits, hempty, ?_, ?_⟩
  · obtain ⟨-, b, haccepts, hb⟩ :=
      recognize_iff_derives built_repeating (show Table.Fits ["a", "a"].length from hfits)
    have hword : repeating.Derives "S" ["a"] := .word (p := some half) (by simp [rules_repeating])
    have hwords : repeating.Derives "S" ["a", "a"] :=
      .split (p := some half) (by simp [rules_repeating]) (by simp) (by simp) hword hword
    rw [haccepts, hb.mpr ⟨by simp, hwords⟩]
  · obtain ⟨-, b, haccepts, hb⟩ :=
      recognize_iff_derives built_repeating (show Table.Fits [].length from hempty)
    have hfalse : b = false := Bool.eq_false_iff.mpr fun htrue => (hb.mp htrue).1 rfl
    rw [haccepts, hfalse]

end ChartParsing.Grammar
