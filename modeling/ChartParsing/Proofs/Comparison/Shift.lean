import ChartParsing.Proofs.Recognition
import ChartParsing.Proofs.Viterbi.Extraction
import Mathlib.Data.List.Basic
import Mathlib.Data.List.GetD

/-!
# The same words at another place

A cell depends on the words of its span alone, and on them only by the rules that they have.  So a
span has the same cell in two sentences, or at two places of one sentence, if its words have the
same rules there.  What a chart says about positions moves along with the span: the splits of
backpointers and the spans of trees.

* `Cell.Shifted`: a cell is another one with its splits moved.
* `shifted_viterbiCell`, `byParts_symbols_eq`: the cells, by `Table.byParts_shifted`.
* `extract_shifted`: the trees, by induction on entries.
* `cells_depend_on_words`: the charts.
-/

namespace ChartParsing

/-! ## Moving positions -/

/-- The span that lies `d` words further on. -/
def Span.shift (d : Nat) (s : Span) : Span :=
  ⟨s.start + d, s.stop + d⟩

/-- The same way to begin a derivation, `d` words further on. -/
def Backpointer.shift (d : Nat) : Backpointer → Backpointer
  | lexical => lexical
  | binary k left right => binary (k + d) left right

/-- The same entry, `d` words further on. -/
def Entry.shift (d : Nat) (e : Entry) : Entry :=
  ⟨e.score, e.back.shift d⟩

namespace Tree

mutual

/-- The same tree `d` words further on, over the words of the sentence there. -/
def transfer (d : Nat) (sentence : List String) : Tree → Tree
  | leaf w s => leaf (sentence.getD (s.start + d) w) (s.shift d)
  | branch x s cs => branch x (s.shift d) (transferAll d sentence cs)

/-- The same trees `d` words further on, over the words of the sentence there. -/
def transferAll (d : Nat) (sentence : List String) : List Tree → List Tree
  | [] => []
  | t :: ts => transfer d sentence t :: transferAll d sentence ts

end

end Tree

namespace Cell

/-- The second cell has the scores of the first one, and its backpointers with their splits moved by
`d`. -/
structure Shifted (d : Nat) (cell cell' : Cell) : Prop where
  scores_eq : cell'.scores = cell.scores
  getElem?_back : ∀ s : Symbol, cell'.back[s]? = cell.back[s]?.map (Backpointer.shift d)

variable {d : Nat} {cell cell' : Cell}

theorem shifted_empty (d : Nat) : Shifted d empty empty where
  scores_eq := rfl
  getElem?_back := by
    intro s
    simp [empty]

theorem Shifted.back_toList_eq (h : Shifted d cell cell') :
    cell'.back.toList = cell.back.toList.map fun e => (e.1, e.2.shift d) := by
  have hequiv : cell'.back.Equiv (cell.back.map fun _ b => b.shift d) := by
    refine Std.TreeMap.Equiv.of_forall_constGet?_eq fun s => ?_
    rw [h.getElem?_back s, Std.TreeMap.getElem?_map]
  rw [hequiv.toList_eq, Std.TreeMap.toList_map]

theorem Shifted.find?_eq (h : Shifted d cell cell') (s : Symbol) :
    cell'.find? s = (cell.find? s).map (Entry.shift d) := by
  rw [find?, find?, h.scores_eq, h.getElem?_back]
  cases cell.scores[s]? with
  | none => rfl
  | some m => cases cell.back[s]? <;> rfl

theorem Shifted.record (h : Shifted d cell cell') (a : Symbol) (e : Entry) :
    Shifted d (cell.record a e) (cell'.record a (e.shift d)) where
  scores_eq := congrArg (fun m : Scores => m.insert a e.score) h.scores_eq
  getElem?_back := by
    intro s
    rw [back_record, back_record, h.getElem?_back, apply_ite (Option.map (Backpointer.shift d))]
    rfl

/-- Moving splits does not change which candidates are recorded. -/
theorem Shifted.offer (h : Shifted d cell cell') (c : Symbol × Entry) :
    Shifted d (cell.offer c) (cell'.offer (c.1, c.2.shift d)) := by
  rw [Cell.offer, Cell.offer, h.scores_eq]
  show Shifted d (if _ then _ else _)
    (if cell.scores[c.1]?.all (fun best => best < c.2.score) then _ else _)
  split
  · exact h.record c.1 c.2
  · exact h

/-- **The step**: candidates with moved splits give a cell with moved splits. -/
theorem shifted_ofCandidates (d : Nat) (cs : List (Symbol × Entry)) :
    Shifted d (ofCandidates cs) (ofCandidates (cs.map fun c => (c.1, c.2.shift d))) := by
  have aux : ∀ (cs : List (Symbol × Entry)) {cell cell' : Cell}, Shifted d cell cell' →
      Shifted d (cs.foldl Cell.offer cell)
        ((cs.map fun c => (c.1, c.2.shift d)).foldl Cell.offer cell') := by
    intro cs
    induction cs with
    | nil => exact fun h => h
    | cons c cs ih => exact fun h => ih (h.offer c)
  exact aux cs (shifted_empty d)

end Cell

namespace Grammar

variable {g : Grammar} {u v : List String} {d : Nat}

/-! ## Cells -/

/-- Each word of the span in the first sentence and the one `d` words further on in the second
sentence have the same parents. -/
def SameParents (g : Grammar) (u v : List String) (d : Nat) (s : Span) : Prop :=
  ∀ k, s.start ≤ k → k < s.stop → u[k]?.map g.lexical = v[k + d]?.map g.lexical

theorem candidates_shifted {ks : List Nat} {l r l' r' : Nat → Scores}
    (h : ∀ k ∈ ks, l' k = l k ∧ r' k = r k) :
    g.candidates (ks.map fun k => ⟨k + d, l' k, r' k⟩) =
      (g.candidates (ks.map fun k => ⟨k, l k, r k⟩)).map fun c => (c.1, c.2.shift d) := by
  simp only [candidates, List.flatMap_map, List.map_flatMap, List.map_map]
  refine List.flatMap_congr fun k hk => ?_
  obtain ⟨hl, hr⟩ := h k hk
  rw [hl, hr]
  rfl

theorem shifted_cellOfParts {ks : List Nat} {l r l' r' : Nat → Cell}
    (h : ∀ k ∈ ks, Cell.Shifted d (l k) (l' k) ∧ Cell.Shifted d (r k) (r' k)) :
    Cell.Shifted d (g.cellOfParts (ks.map fun k => ⟨k, l k, r k⟩))
      (g.cellOfParts (ks.map fun k => ⟨k + d, l' k, r' k⟩)) := by
  have hcandidates := candidates_shifted (g := g) (d := d) fun k hk =>
    ⟨(h k hk).1.scores_eq, (h k hk).2.scores_eq⟩
  have hstep := Cell.shifted_ofCandidates d
    (g.candidates (ks.map fun k => ⟨k, (l k).scores, (r k).scores⟩))
  rw [← hcandidates] at hstep
  rw [cellOfParts, cellOfParts, List.map_map, List.map_map]
  exact hstep

/-- A word has no split to move. -/
theorem shifted_cellOfWord {w w' : String} (h : g.lexical w = g.lexical w') :
    Cell.Shifted d (g.cellOfWord w) (g.cellOfWord w') := by
  have aux : ∀ (ps : List WeightedParent) {cell cell' : Cell}, Cell.Shifted d cell cell' →
      Cell.Shifted d (ps.foldl (fun cell p => cell.record p.1 ⟨p.2, .lexical⟩) cell)
        (ps.foldl (fun cell p => cell.record p.1 ⟨p.2, .lexical⟩) cell') := by
    intro ps
    induction ps with
    | nil => exact fun h => h
    | cons p ps ih => exact fun h => ih (h.record p.1 ⟨p.2, .lexical⟩)
  rw [cellOfWord, cellOfWord, ← h]
  exact aux (g.lexical w) (Cell.shifted_empty d)

theorem SameParents.lexical_eq {s : Span} (h : g.SameParents u v d s) (hs : s.Within u.length)
    (hs' : (s.shift d).Within v.length) {k : Nat} (hk : s.start ≤ k) (hk' : k < s.stop) :
    g.lexical (u.getD k "") = g.lexical (v.getD (k + d) "") := by
  have hu : k < u.length := Nat.lt_of_lt_of_le hk' hs.2
  have hv : k + d < v.length := Nat.lt_of_lt_of_le (Nat.add_lt_add_right hk' d) hs'.2
  have hsame := h k hk hk'
  rw [List.getElem?_eq_getElem hu, List.getElem?_eq_getElem hv] at hsame
  rw [List.getD_eq_getElem _ _ hu, List.getD_eq_getElem _ _ hv]
  exact Option.some.inj hsame

/-- **The cell of the same words** has the same scores, and the same backpointers with their splits
moved. -/
theorem shifted_viterbiCell {s : Span} (h : g.SameParents u v d s) (hs : s.Within u.length)
    (hs' : (s.shift d).Within v.length) :
    Cell.Shifted d (g.viterbiCell u s) (g.viterbiCell v (s.shift d)) := by
  refine Table.byParts_shifted (Cell.Shifted d) d ?_ ?_
  · intro k hk hor
    exact shifted_cellOfWord (h.lexical_eq hs hs' hk (by have := hs.1; omega))
  · intro ks l r l' r' hparts
    exact shifted_cellOfParts hparts

theorem byParts_symbols_eq {s : Span} (h : g.SameParents u v d s) (hs : s.Within u.length)
    (hs' : (s.shift d).Within v.length) :
    Table.byParts g.symbolsOfWord g.symbolsOfSplits u s =
      Table.byParts g.symbolsOfWord g.symbolsOfSplits v (s.shift d) := by
  refine Table.byParts_shifted Eq d ?_ ?_
  · intro k hk hor
    rw [symbolsOfWord, symbolsOfWord, h.lexical_eq hs hs' hk (by have := hs.1; omega)]
  · intro ks l r l' r' hparts
    simp only [symbolsOfSplits, List.flatMap_map]
    congr 1
    refine List.flatMap_congr fun k hk => ?_
    obtain ⟨hl, hr⟩ := hparts k hk
    rw [hl, hr]

/-- At the same place the cells are equal. -/
theorem viterbiCell_eq_of_sameParents {s : Span} (h : g.SameParents u v 0 s)
    (hs : s.Within u.length) (hs' : s.Within v.length) :
    g.viterbiCell u s = g.viterbiCell v s := by
  refine Table.byParts_shifted Eq 0 ?_ ?_
  · intro k hk hor
    rw [cellOfWord, cellOfWord, h.lexical_eq hs hs' hk (by have := hs.1; omega)]
  · intro ks l r l' r' hparts
    congr 1
    refine List.map_congr_left fun k hk => ?_
    obtain ⟨hl, hr⟩ := hparts k hk
    rw [hl, hr]
    rfl

/-! ### Parts of sentences -/

theorem sameParents_of_append (g : Grammar) (before part after : List String) {s : Span}
    (hs : s.Within part.length) :
    g.SameParents part (before ++ part ++ after) before.length s := by
  intro k _ hk
  have hpart : k < part.length := Nat.lt_of_lt_of_le hk hs.2
  rw [List.append_assoc, List.getElem?_append_right (Nat.le_add_left _ _), Nat.add_sub_cancel,
    List.getElem?_append_left hpart]

theorem sameParents_of_unknown {w w' : String} (hw : g.lexical w = []) (hw' : g.lexical w' = [])
    (before after : List String) (s : Span) :
    g.SameParents (before ++ w :: after) (before ++ w' :: after) 0 s := by
  intro k _ _
  rw [Nat.add_zero, ← List.getElem?_map, ← List.getElem?_map]
  simp only [List.map_append, List.map_cons, hw, hw']

/-! ## Trees -/

section Trees

variable {c c' : ViterbiChart}

/-- **An entry gives the same tree at both places.** -/
theorem extract_shifted (h : g.Consistent) (hc : g.Charts u c) (hc' : g.Charts v c') {i j : Nat}
    (hij : i < j) (hj : j ≤ u.length) (hj' : j + d ≤ v.length)
    (hsame : g.SameParents u v d ⟨i, j⟩) {s : Symbol} {e : Entry}
    (he : (g.viterbiCell u ⟨i, j⟩).find? s = some e) :
    ∃ t, c.extract s ⟨i, j⟩ = .ok t ∧
      c'.extract s (Span.shift d ⟨i, j⟩) = .ok (t.transfer d v) := by
  revert hj' hsame
  refine h.entry_induction ?_ ?_ hij hj he
  · -- one word: the leaf has the word that `v` has there
    intro i x p s hi hrule hx he hj' hsame
    have hspan : Span.Within ⟨i, i + 1⟩ u.length := ⟨Nat.lt_succ_self i, hi⟩
    have hspan' : (Span.shift d ⟨i, i + 1⟩).Within v.length :=
      ⟨Nat.add_lt_add_right (Nat.lt_succ_self i) d, hj'⟩
    have hback := hc.backpointer_eq hspan s
    have hback' := hc'.backpointer_eq hspan' s
    rw [(shifted_viterbiCell hsame hspan hspan').find?_eq s, he] at hback'
    rw [he] at hback
    have hword : c.words[i]? = some u[i] := by
      rw [hc.words_eq]
      exact List.getElem?_eq_getElem hi
    have hword' : c'.words[i + d]? = some (v.getD (i + d) u[i]) := by
      rw [hc'.words_eq, List.getD_eq_getElem _ _ (by omega)]
      exact List.getElem?_eq_getElem (by omega)
    exact ⟨_, ViterbiChart.extract_lexical hback (hc.name_eq hx) hword,
      ViterbiChart.extract_lexical hback' (hc'.name_eq hx) hword'⟩
  · -- a split: the one of the other entry lies `d` words further on, and so do its parts
    intro i k j x y z p s b e l r hik hkj hj hrule hx hy hz he ihl ihr hj' hsame
    have hij := Nat.lt_trans hik hkj
    have hspan : Span.Within ⟨i, j⟩ u.length := ⟨hij, hj⟩
    have hspan' : (Span.shift d ⟨i, j⟩).Within v.length := ⟨Nat.add_lt_add_right hij d, hj'⟩
    have hback := hc.backpointer_eq hspan s
    have hback' := hc'.backpointer_eq hspan' s
    rw [(shifted_viterbiCell hsame hspan hspan').find?_eq s, he] at hback'
    rw [he] at hback
    obtain ⟨tl, hl, hl'⟩ := ihl (by omega) fun m hm hm' => hsame m hm (Nat.lt_trans hm' hkj)
    obtain ⟨tr, hr, hr'⟩ := ihr hj' fun m hm hm' => hsame m (Nat.le_trans (Nat.le_of_lt hik) hm) hm'
    exact ⟨_, ViterbiChart.extract_binary hback (hc.name_eq hx) ⟨hik, hkj⟩ hl hr,
      ViterbiChart.extract_binary hback' (hc'.name_eq hx)
        ⟨Nat.add_lt_add_right hik d, Nat.add_lt_add_right hkj d⟩ hl' hr'⟩

end Trees

/-! ## Charts -/

/-- What the second pair of charts, those of the sentence `v`, has `d` words further on is what the
first pair has at the span: the same symbols, the same scores, the same backpointers with their
splits moved, and the same trees with their spans moved and the words of `v`. -/
structure SamePart (r r' : RecognitionChart) (c c' : ViterbiChart) (v : List String) (d : Nat)
    (s : Span) : Prop where
  symbols : ∃ cell, r.cell s = .ok cell ∧ r'.cell (s.shift d) = .ok cell
  scores : ∃ cell, c.cell s = .ok cell ∧ c'.cell (s.shift d) = .ok cell
  back : ∃ back back', c.back.get s = .ok back ∧ c'.back.get (s.shift d) = .ok back' ∧
    back'.toList = back.toList.map fun e => (e.1, e.2.shift d)
  score : ∀ a, ∃ m, c.score s a = .ok m ∧ c'.score (s.shift d) a = .ok m
  backpointer : ∀ a, ∃ b, c.backpointer s a = .ok b ∧
    c'.backpointer (s.shift d) a = .ok (b.map (Backpointer.shift d))
  tree : ∀ a,
    (∃ t, c.extract a s = .ok t ∧ c'.extract a (s.shift d) = .ok (t.transfer d v)) ∨
      ∃ x, c.extract a s = .error (.noDerivation x s) ∧
        c'.extract a (s.shift d) = .error (.noDerivation x (s.shift d))

theorem samePart_of_sameParents (h : g.Consistent) {r r' : RecognitionChart}
    {c c' : ViterbiChart} (hc : g.Charts u c) (hc' : g.Charts v c')
    (hr : ∀ s : Span, s.Within u.length →
      r.cell s = .ok (Table.byParts g.symbolsOfWord g.symbolsOfSplits u s))
    (hr' : ∀ s : Span, s.Within v.length →
      r'.cell s = .ok (Table.byParts g.symbolsOfWord g.symbolsOfSplits v s))
    {s : Span} (hs : s.Within u.length) (hs' : (s.shift d).Within v.length)
    (hsame : g.SameParents u v d s) : SamePart r r' c c' v d s := by
  have hshift := shifted_viterbiCell hsame hs hs'
  exact {
    symbols := ⟨_, hr s hs, byParts_symbols_eq hsame hs hs' ▸ hr' _ hs'⟩
    scores := ⟨_, hc.cell_eq s hs, hshift.scores_eq ▸ hc'.cell_eq _ hs'⟩
    back := ⟨_, _, hc.back_eq s hs, hc'.back_eq _ hs', hshift.back_toList_eq⟩
    score := by
      intro a
      refine ⟨_, hc.score_eq hs a, ?_⟩
      rw [hc'.score_eq hs', hshift.find?_eq a, Option.map_map]
      rfl
    backpointer := by
      intro a
      refine ⟨_, hc.backpointer_eq hs a, ?_⟩
      rw [hc'.backpointer_eq hs', hshift.find?_eq a, Option.map_map, Option.map_map]
      rfl
    tree := by
      intro a
      cases he : (g.viterbiCell u s).find? a with
      | some e => exact .inl (extract_shifted h hc hc' hs.1 hs.2 hs'.2 hsame he)
      | none =>
        have he' : (g.viterbiCell v (s.shift d)).find? a = none := by
          rw [hshift.find?_eq a, he]
          rfl
        exact .inr ⟨_, extract_eq_error hc hs.1 hs.2 he, extract_eq_error hc' hs'.1 hs'.2 he'⟩ }

/-- The charts of two sentences. -/
theorem exists_charts_samePart (h : g.Consistent) (hu : Table.Fits u.length)
    (hv : Table.Fits v.length) :
    ∃ r r' c c', g.recognize u = .ok r ∧ g.recognize v = .ok r' ∧
      g.bestParse u = .ok c ∧ g.bestParse v = .ok c' ∧
      (∀ d (s : Span), s.Within u.length → (s.shift d).Within v.length →
        g.SameParents u v d s → SamePart r r' c c' v d s) ∧
      ∀ s : Span, s.Within u.length → s.Within v.length → g.SameParents u v 0 s →
        (∃ cell, r.cell s = .ok cell ∧ r'.cell s = .ok cell) ∧
        (∃ cell, c.cell s = .ok cell ∧ c'.cell s = .ok cell) ∧
        ∃ back, c.back.get s = .ok back ∧ c'.back.get s = .ok back := by
  obtain ⟨r, hr, -, -, hcells⟩ := recognize_cells g hu
  obtain ⟨r', hr', -, -, hcells'⟩ := recognize_cells g hv
  obtain ⟨c, hc, hchart⟩ := bestParse_eq_ok g hu
  obtain ⟨c', hc', hchart'⟩ := bestParse_eq_ok g hv
  refine ⟨r, r', c, c', hr, hr', hc, hc', ?_, ?_⟩
  · intro d s hs hs' hsame
    exact samePart_of_sameParents h hchart hchart' hcells hcells' hs hs' hsame
  · intro s hs hs' hsame
    have hcell := viterbiCell_eq_of_sameParents hsame hs hs'
    exact ⟨⟨_, hcells s hs, byParts_symbols_eq (d := 0) hsame hs hs' ▸ hcells' s hs'⟩,
      ⟨_, hchart.cell_eq s hs, hcell ▸ hchart'.cell_eq s hs'⟩,
      _, hchart.back_eq s hs, hcell ▸ hchart'.back_eq s hs'⟩

/-- **A cell depends only on the words of its span, and on them only by their rules.**  For every
grammar and any two sentences whose charts have sizes, a span of the one and the span `d` words
further on of the other are the same part if their words have the same parents.  So the chart of a
part of a sentence is a part of the chart of the sentence; and to put one unknown word for another
changes no cell. -/
theorem cells_depend_on_words (h : g.Built) :
    (∀ u v : List String, Table.Fits u.length → Table.Fits v.length →
      ∃ r r' c c', g.recognize u = .ok r ∧ g.recognize v = .ok r' ∧
        g.bestParse u = .ok c ∧ g.bestParse v = .ok c' ∧
        ∀ d (s : Span), s.Within u.length → (s.shift d).Within v.length →
          g.SameParents u v d s → SamePart r r' c c' v d s) ∧
    (∀ before part after : List String, Table.Fits (before ++ part ++ after).length →
      ∃ r r' c c', g.recognize part = .ok r ∧ g.recognize (before ++ part ++ after) = .ok r' ∧
        g.bestParse part = .ok c ∧ g.bestParse (before ++ part ++ after) = .ok c' ∧
        ∀ s : Span, s.Within part.length →
          SamePart r r' c c' (before ++ part ++ after) before.length s) ∧
    ∀ (before after : List String) (w w' : String), g.lexical w = [] → g.lexical w' = [] →
      Table.Fits (before ++ w :: after).length →
      ∃ r r' c c', g.recognize (before ++ w :: after) = .ok r ∧
        g.recognize (before ++ w' :: after) = .ok r' ∧
        g.bestParse (before ++ w :: after) = .ok c ∧
        g.bestParse (before ++ w' :: after) = .ok c' ∧
        ∀ s : Span, s.Within (before ++ w :: after).length →
          (∃ cell, r.cell s = .ok cell ∧ r'.cell s = .ok cell) ∧
          (∃ cell, c.cell s = .ok cell ∧ c'.cell s = .ok cell) ∧
          ∃ back, c.back.get s = .ok back ∧ c'.back.get s = .ok back := by
  refine ⟨?_, ?_, ?_⟩
  · intro u v hu hv
    obtain ⟨r, r', c, c', hr, hr', hc, hc', hsame, -⟩ :=
      exists_charts_samePart h.consistent hu hv
    exact ⟨r, r', c, c', hr, hr', hc, hc', hsame⟩
  · intro before part after hwhole
    have hpart : Table.Fits part.length := hwhole.mono (by simp; omega)
    obtain ⟨r, r', c, c', hr, hr', hc, hc', hsame, -⟩ :=
      exists_charts_samePart h.consistent hpart hwhole
    refine ⟨r, r', c, c', hr, hr', hc, hc', fun s hs => hsame _ s hs ?_ ?_⟩
    · simp only [Span.Within, Span.shift, List.length_append] at hs ⊢
      omega
    · exact sameParents_of_append g before part after hs
  · intro before after w w' hw hw' hn
    have hlength : (before ++ w :: after).length = (before ++ w' :: after).length := by simp
    obtain ⟨r, r', c, c', hr, hr', hc, hc', -, hsame⟩ :=
      exists_charts_samePart h.consistent hn (hlength ▸ hn)
    refine ⟨r, r', c, c', hr, hr', hc, hc', fun s hs => hsame s hs (hlength ▸ hs) ?_⟩
    exact sameParents_of_unknown hw hw' before after s

/-- The words `a a` have the same score on their own and after an unknown word. -/
theorem repeating_shifts : repeating.Built ∧ Table.Fits 2 ∧ Table.Fits 3 ∧
    repeating.SameParents ["a", "a"] ["b", "a", "a"] 1 ⟨0, 2⟩ ∧
    ∃ r r' c c', repeating.bestParse ["a", "a"] = .ok c ∧
      repeating.bestParse ["b", "a", "a"] = .ok c' ∧ SamePart r r' c c' ["b", "a", "a"] 1 ⟨0, 2⟩ ∧
      c.score ⟨0, 2⟩ ⟨0⟩ = .ok (some 0.125) ∧ c'.score ⟨1, 3⟩ ⟨0⟩ = .ok (some 0.125) := by
  have hfits : Table.Fits ["a", "a"].length := by decide
  have hfits' : Table.Fits ["b", "a", "a"].length := by decide
  have hsame : repeating.SameParents ["a", "a"] ["b", "a", "a"] 1 ⟨0, 2⟩ := by
    intro k _ hk
    match k, hk with
    | 0, _ => rfl
    | 1, _ => rfl
  obtain ⟨r, r', c, c', -, -, hc, hc', hpart⟩ :=
    (cells_depend_on_words built_repeating).1 ["a", "a"] ["b", "a", "a"] hfits hfits'
  have hshift := hpart 1 ⟨0, 2⟩ (by decide) (by decide) hsame
  have hscore : (repeating.bestParse ["a", "a"] >>= fun c => c.score ⟨0, 2⟩ ⟨0⟩).toOption =
      some (some 0.125) := by decide +kernel
  obtain ⟨w, hw, heighth⟩ := bind_eq_ok.mp (toOption_eq_some_iff.mp hscore)
  obtain rfl : c = w := Except.ok.inj (hc.symm.trans hw)
  obtain ⟨m, hm, hm'⟩ := hshift.score ⟨0⟩
  obtain rfl : m = some 0.125 := Except.ok.inj (hm.symm.trans heighth)
  exact ⟨built_repeating, hfits, hfits', hsame, r, r', c, c', hc, hc', hshift, hm, hm'⟩

end Grammar

end ChartParsing
