import ChartParsing.Proofs.Grammar.Numbering
import ChartParsing.Proofs.Table.Capacity
import ChartParsing.Proofs.Table.History
import ChartParsing.Proofs.Tree.Bracketed
import ChartParsing.Proofs.Viterbi.Extraction

/-!
# The shape of extracted trees

An extracted tree has one word below each lowest branch and two parts below any other, and its spans
follow one another.  This holds of every chart there is, whatever rules its grammar was made from.  So
the position where the tree begins and the tree without its spans determine all the spans.

* `charts_of_bestParse`: every chart holds the cells of the recursion over spans.
* `extract_cases`: what an extracted tree is made from.
* `Tree.Spanned`, `spanned_of_extract`: the spans of an extracted tree.
* `Tree.Spanned.eq_of_unspanned_eq`: the spans follow from the shape and the beginning.
* `bracketed_determines_tree`: **the bracketed form determines a tree up to spans**, and extracted
  trees with the same beginning entirely.
-/

namespace ChartParsing

/-! ## Spans -/

/-- The spans of the tree follow one another: a branch over one word has the span of the word, and a
branch over two parts has theirs together. -/
inductive Tree.Spanned : Tree → Prop
  | word {x w : String} {i : Nat} : Spanned (.branch x ⟨i, i + 1⟩ [.leaf w ⟨i, i + 1⟩])
  | split {x : String} {i k j : Nat} {l r : Tree} : l.span = ⟨i, k⟩ → r.span = ⟨k, j⟩ →
      Spanned l → Spanned r → Spanned (.branch x ⟨i, j⟩ [l, r])

/-- **The spans follow from the shape and the beginning.** -/
theorem Tree.Spanned.eq_of_unspanned_eq {t u : Tree} (ht : t.Spanned) (hu : u.Spanned)
    (hstart : t.span.start = u.span.start) (h : t.unspanned = u.unspanned) : t = u := by
  induction ht generalizing u with
  | @word x w i =>
    cases hu with
    | @word x' w' i' =>
      obtain rfl : i = i' := hstart
      simp only [unspanned, unspannedAll, branch.injEq, List.cons.injEq, leaf.injEq, and_true,
        true_and] at h
      obtain ⟨rfl, rfl⟩ := h
      rfl
    | split => simp [unspanned, unspannedAll] at h
  | @split x i k j l r hl hr _ _ ihl ihr =>
    cases hu with
    | word => simp [unspanned, unspannedAll] at h
    | @split x' i' k' j' l' r' hl' hr' hlu hru =>
      obtain rfl : i = i' := hstart
      simp only [unspanned, unspannedAll, branch.injEq, List.cons.injEq, and_true, true_and] at h
      obtain ⟨rfl, hleft, hright⟩ := h
      obtain rfl := ihl hlu (by rw [hl, hl']) hleft
      obtain rfl : k = k' := (Span.mk.inj (hl.symm.trans hl')).2
      obtain rfl := ihr hru (by rw [hr, hr']) hright
      obtain rfl : j = j' := (Span.mk.inj (hr.symm.trans hr')).2
      rfl

/-! ## Extraction -/

namespace ViterbiChart

variable {c : ViterbiChart} {symbol : Symbol} {span : Span} {t : Tree}

/-- What an extracted tree is made from: the word of its span, or the trees of two parts. -/
theorem extract_cases (h : c.extract symbol span = .ok t) :
    ∃ x, c.grammar.name symbol = .ok x ∧
      ((c.backpointer span symbol = .ok (some .lexical) ∧ ∃ w, c.words[span.start]? = some w ∧
          t = .branch x span [.leaf w span]) ∨
        ∃ k b d l r, c.backpointer span symbol = .ok (some (.binary k b d)) ∧
          span.start < k ∧ k < span.stop ∧ c.extract b ⟨span.start, k⟩ = .ok l ∧
            c.extract d ⟨k, span.stop⟩ = .ok r ∧ t = .branch x span [l, r]) := by
  rw [extract] at h
  obtain ⟨back, hback, h⟩ := bind_eq_ok.mp h
  have hback := mapError_eq_ok.mp hback
  cases back with
  | none => exact absurd h throw_ne_ok
  | some back =>
    cases back with
    | lexical =>
      obtain ⟨x, hx, h⟩ := bind_eq_ok.mp h
      refine ⟨x, mapError_eq_ok.mp hx, .inl ⟨hback, ?_⟩⟩
      split at h
      · rename_i w hw
        exact ⟨w, hw, (pure_eq_ok.mp h).symm⟩
      · exact absurd h throw_ne_ok
    | binary k b d =>
      obtain ⟨x, hx, h⟩ := bind_eq_ok.mp h
      refine ⟨x, mapError_eq_ok.mp hx, .inr ?_⟩
      split at h
      · rename_i hk
        obtain ⟨l, hl, h⟩ := bind_eq_ok.mp h
        obtain ⟨r, hr, h⟩ := bind_eq_ok.mp h
        exact ⟨k, b, d, l, r, hback, hk.1, hk.2, hl, hr, (pure_eq_ok.mp h).symm⟩
      · exact absurd h throw_ne_ok

theorem within_of_backpointer {b : Option Backpointer} (h : c.backpointer span symbol = .ok b) :
    span.Within c.back.size := by
  by_contra hspan
  obtain ⟨back, hback, -⟩ := bind_eq_ok.mp h
  rw [Table.get_outside hspan] at hback
  exact absurd hback (by simp)

end ViterbiChart

namespace Grammar

variable {g : Grammar} {words : List String} {c : ViterbiChart}

/-- **Every chart is the one of the recursion**, and its tables are those of the sentence. -/
theorem charts_of_bestParse (h : g.bestParse words = .ok c) :
    g.Charts words c ∧ c.back.size = words.length := by
  obtain ⟨t, ht, hc⟩ := bind_eq_ok.mp h
  obtain ⟨cells, hcells, rfl⟩ := exists_cells_of_fillTables ht
  obtain ⟨c', hc', hcharts⟩ := bestParse_eq_ok g (Table.fits_of_fill hcells)
  obtain rfl : c = c' := Except.ok.inj (h.symm.trans hc')
  refine ⟨hcharts, ?_⟩
  obtain rfl := pure_eq_ok.mp hc
  exact (Table.fill_writes hcells).size_eq

/-- Longer spans are split. -/
theorem Charts.stop_eq_of_lexical (hc : g.Charts words c) {span : Span} {s : Symbol}
    (hspan : span.Within words.length) (h : c.backpointer span s = .ok (some .lexical)) :
    span.stop = span.start + 1 := by
  obtain ⟨e, he, hback⟩ := (hc.backpointer_eq_some_iff hspan).mp h
  by_contra hne
  have hlong : span.start + 1 < span.stop := by
    have := hspan.1
    omega
  rw [viterbiCell_of_lt g words hlong, Cell.find?_ofCandidates] at he
  have hmem := Cell.mem_candidatesFor.mp (Cell.mem_of_best_eq_some he)
  obtain ⟨_, _, _, _, _, _, _, _, _, _, rfl⟩ := mem_candidates_iff.mp hmem
  exact absurd hback (by simp)

/-- The text is a name of the grammar or a word of the sentence. -/
def IsText (g : Grammar) (words : List String) (x : String) : Prop :=
  (∃ s, g.name? s = some x) ∨ x ∈ words

theorem isText_of_name (hc : g.Charts words c) {s : Symbol} {x : String}
    (h : c.grammar.name s = .ok x) : g.IsText words x := by
  rw [hc.grammar_eq] at h
  exact .inl ⟨s, name_eq_ok_iff.mp h⟩

/-- **An extracted tree** has the span of the request, its spans follow one another, and its texts
are names and words. -/
theorem spanned_of_extract (h : g.bestParse words = .ok c) {s : Symbol} {span : Span} {t : Tree}
    (ht : c.extract s span = .ok t) :
    t.span = span ∧ t.Spanned ∧ ∀ x ∈ t.texts, g.IsText words x := by
  obtain ⟨hc, hsize⟩ := charts_of_bestParse h
  obtain ⟨n, hn⟩ : ∃ n, span.length = n := ⟨_, rfl⟩
  induction n using Nat.strongRecOn generalizing s span t with
  | ind n ih =>
    obtain ⟨x, hx, ⟨hback, w, hw, rfl⟩ | ⟨k, b, d, l, r, -, hik, hkj, hl, hr, rfl⟩⟩ :=
      ViterbiChart.extract_cases ht
    · have hstop := hc.stop_eq_of_lexical (hsize ▸ ViterbiChart.within_of_backpointer hback) hback
      obtain ⟨i, j⟩ := span
      obtain rfl : j = i + 1 := hstop
      rw [hc.words_eq] at hw
      refine ⟨rfl, .word, ?_⟩
      rw [Tree.forall_mem_texts_branch, List.forall_mem_singleton, Tree.forall_mem_texts_leaf]
      exact ⟨isText_of_name hc hx, .inr (List.mem_of_getElem? hw)⟩
    · obtain ⟨i, j⟩ := span
      simp only [Span.length] at *
      obtain ⟨hlspan, hlspanned, hltexts⟩ := ih (k - i) (by omega) hl rfl
      obtain ⟨hrspan, hrspanned, hrtexts⟩ := ih (j - k) (by omega) hr rfl
      refine ⟨rfl, .split hlspan hrspan hlspanned hrspanned, ?_⟩
      rw [Tree.forall_mem_texts_branch, List.forall_mem_cons, List.forall_mem_singleton]
      exact ⟨isText_of_name hc hx, hltexts, hrtexts⟩

/-! ## Bracketed forms -/

/-- All names of the grammar and all words of the sentence can be told apart in a bracketed form. -/
def HasAtoms (g : Grammar) (words : List String) : Prop :=
  (∀ s x, g.name? s = some x → Tree.IsAtom x) ∧ ∀ w ∈ words, Tree.IsAtom w

/-- The tree is extracted from the chart of the words, for a span that begins at `start`. -/
def Extracts (g : Grammar) (words : List String) (start : Nat) (t : Tree) : Prop :=
  ∃ c s stop, g.bestParse words = .ok c ∧ c.extract s ⟨start, stop⟩ = .ok t

theorem Extracts.spanned {start : Nat} {t : Tree} (h : g.Extracts words start t) :
    t.span.start = start ∧ t.Spanned := by
  obtain ⟨c, s, stop, hc, ht⟩ := h
  obtain ⟨hspan, hspanned, -⟩ := spanned_of_extract hc ht
  exact ⟨by rw [hspan], hspanned⟩

theorem Extracts.isAtom {start : Nat} {t : Tree} (h : g.Extracts words start t)
    (hatoms : g.HasAtoms words) : ∀ x ∈ t.texts, Tree.IsAtom x := by
  obtain ⟨c, s, stop, hc, ht⟩ := h
  obtain ⟨-, -, htexts⟩ := spanned_of_extract hc ht
  intro x hx
  rcases htexts x hx with ⟨s', hname⟩ | hword
  · exact hatoms.1 s' x hname
  · exact hatoms.2 x hword

/-- **The bracketed form determines the tree.**  Trees of any shape with the same bracketed form are
the same up to spans, if their texts are atoms.  Trees that are extracted from charts, from the same
position on, are the same with their spans. -/
theorem bracketed_determines_tree :
    (∀ t u : Tree, (∀ x ∈ t.texts, Tree.IsAtom x) → (∀ x ∈ u.texts, Tree.IsAtom x) →
      t.bracketed = u.bracketed → t.unspanned = u.unspanned) ∧
    ∀ (g g' : Grammar) (words words' : List String), g.HasAtoms words → g'.HasAtoms words' →
      ∀ (start : Nat) (t u : Tree), g.Extracts words start t → g'.Extracts words' start u →
        (t = u ↔ t.bracketed = u.bracketed) := by
  refine ⟨fun t u ht hu h => (Tree.unspanned_eq_iff_bracketed_eq ht hu).mpr h, ?_⟩
  intro g g' words words' hatoms hatoms' start t u ht hu
  constructor
  · exact congrArg Tree.bracketed
  · intro h
    obtain ⟨htstart, htspanned⟩ := ht.spanned
    obtain ⟨hustart, huspanned⟩ := hu.spanned
    refine htspanned.eq_of_unspanned_eq huspanned (htstart.trans hustart.symm) ?_
    exact (Tree.unspanned_eq_iff_bracketed_eq (ht.isAtom hatoms) (hu.isAtom hatoms')).mpr h

/-- The tree of `a a` from the position `i` on. -/
def pairTree (i : Nat) : Tree :=
  .branch "S" ⟨i, i + 2⟩ [.branch "S" ⟨i, i + 1⟩ [.leaf "a" ⟨i, i + 1⟩],
    .branch "S" ⟨i + 1, i + 2⟩ [.leaf "a" ⟨i + 1, i + 2⟩]]

/-- The tree of `a a a` whose first part has one word. -/
def tripleTree : Tree :=
  .branch "S" ⟨0, 3⟩ [.branch "S" ⟨0, 1⟩ [.leaf "a" ⟨0, 1⟩], pairTree 1]

theorem hasAtoms_repeating : repeating.HasAtoms ["a", "a", "a"] := by
  constructor
  · intro s x hx
    have hmem := SymbolTable.mem_of_name?_ofNames hx
    have hname : x = "S" := by simpa [Rule.names, Rule.binary, Rule.lexical] using hmem
    rw [hname, Tree.IsAtom]
    decide
  · intro w hw
    have hword : w = "a" := by simpa using hw
    rw [hword, Tree.IsAtom]
    decide

theorem extracts_of_toOption {start : Nat} {t : Tree} (s : Symbol) (stop : Nat)
    (h : (g.bestParse words).toOption.bind (fun c => (c.extract s ⟨start, stop⟩).toOption) =
      some t) : g.Extracts words start t := by
  obtain ⟨c, hc, ht⟩ := Option.bind_eq_some_iff.mp h
  exact ⟨c, s, stop, toOption_eq_some_iff.mp hc, toOption_eq_some_iff.mp ht⟩

/-- The trees of the first two words and of all words of `a a a` have different bracketed forms.  The
tree of the last two words has that of the first two, and is the same tree up to spans. -/
theorem repeating_bracketed :
    (repeating.HasAtoms ["a", "a", "a"] ∧ repeating.Extracts ["a", "a", "a"] 0 (pairTree 0) ∧
      repeating.Extracts ["a", "a", "a"] 0 tripleTree ∧
      (pairTree 0).bracketed ≠ tripleTree.bracketed) ∧
    (∀ x ∈ (pairTree 0).texts, Tree.IsAtom x) ∧ (∀ x ∈ (pairTree 1).texts, Tree.IsAtom x) ∧
      (pairTree 0).bracketed = (pairTree 1).bracketed ∧ pairTree 0 ≠ pairTree 1 ∧
      (pairTree 0).unspanned = (pairTree 1).unspanned := by
  have hpair : repeating.Extracts ["a", "a", "a"] 0 (pairTree 0) :=
    extracts_of_toOption ⟨0⟩ 2 (by decide +kernel)
  have htriple : repeating.Extracts ["a", "a", "a"] 0 tripleTree :=
    extracts_of_toOption ⟨0⟩ 3 (by decide +kernel)
  have hiff := bracketed_determines_tree.2 _ _ _ _ hasAtoms_repeating hasAtoms_repeating 0 _ _
    hpair htriple
  have hfirst : ∀ x ∈ (pairTree 0).texts, Tree.IsAtom x := hpair.isAtom hasAtoms_repeating
  have hlast : ∀ x ∈ (pairTree 1).texts, Tree.IsAtom x := hfirst
  have hform : (pairTree 0).bracketed = (pairTree 1).bracketed := by decide
  exact ⟨⟨hasAtoms_repeating, hpair, htriple, fun h => absurd (hiff.mpr h) (by decide)⟩, hfirst,
    hlast, hform, by decide, bracketed_determines_tree.1 _ _ hfirst hlast hform⟩

end Grammar

end ChartParsing
