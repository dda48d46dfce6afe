import ChartParsing.Proofs.Charts
import Mathlib.Data.List.Nodup

/-!
# The names over a span

A recognition chart shows a cell as a list of names.  The list has the names that derive the words
of the span, in the order of the names and each of them once.  There is only one such list, whatever
the numbers of the symbols are.

* `namesAt_spec`: the list of names of a cell.
* `recognize_namesAt`: the lists of names of a chart.
* `AreNames.unique`: two lists with this property are equal.
-/

namespace ChartParsing.Grammar

variable {g : Grammar} {words : List String}

theorem name?_injective {x : String} {s t : Symbol} (hs : g.name? s = some x)
    (ht : g.name? t = some x) : s = t :=
  Option.some.inj ((symbol?_eq_some_iff.mpr hs).symm.trans (symbol?_eq_some_iff.mpr ht))

theorem map_name?_of_mapM {symbols : List Symbol} {names : List String}
    (h : symbols.mapM g.name = .ok names) : symbols.map g.name? = names.map some := by
  induction symbols generalizing names with
  | nil =>
    obtain rfl : [] = names := pure_eq_ok.mp h
    rfl
  | cons s ss ih =>
    rw [List.mapM_cons] at h
    obtain ⟨x, hx, h⟩ := bind_eq_ok.mp h
    obtain ⟨xs, hxs, h⟩ := bind_eq_ok.mp h
    obtain rfl : x :: xs = names := pure_eq_ok.mp h
    rw [List.map_cons, List.map_cons, name_eq_ok_iff.mp hx, ih hxs]

/-- The list has the names of this kind, in their order and each once. -/
structure AreNames (P : String → Prop) (names : List String) : Prop where
  ordered : names.Pairwise (· ≤ ·)
  nodup : names.Nodup
  mem_iff : ∀ x, x ∈ names ↔ P x

theorem AreNames.unique {P : String → Prop} {names names' : List String} (h : AreNames P names)
    (h' : AreNames P names') : names = names' := by
  have hperm : names.Perm names' := by
    rw [List.perm_ext_iff_of_nodup h.nodup h'.nodup]
    intro x
    rw [h.mem_iff, h'.mem_iff]
  exact hperm.eq_of_pairwise (fun _ _ _ _ => String.le_antisymm) h.ordered h'.ordered

theorem pairwise_mergeSort_names (names : List String) :
    (names.mergeSort fun a b => decide (a ≤ b)).Pairwise (· ≤ ·) := by
  have hsorted : (names.mergeSort fun a b => decide (a ≤ b)).Pairwise fun a b =>
      decide (a ≤ b) = true := by
    refine List.pairwise_mergeSort ?_ ?_ names
    · intro a b c hab hbc
      rw [decide_eq_true_iff] at *
      exact String.le_trans hab hbc
    · intro a b
      rw [Bool.or_eq_true, decide_eq_true_iff, decide_eq_true_iff]
      exact String.le_total a b
  exact hsorted.imp of_decide_eq_true

/-- **The list of a cell** has the names of its symbols. -/
theorem namesAt_spec {c : RecognitionChart} {cell : SymbolSet} {span : Span} {names : List String}
    (hcell : c.cell span = .ok cell) (hnames : c.namesAt span = .ok names) :
    AreNames (fun x => ∃ s ∈ cell, c.grammar.name? s = some x) names := by
  obtain ⟨cell', hcell', h⟩ := bind_eq_ok.mp hnames
  obtain rfl : cell = cell' := Except.ok.inj (hcell.symm.trans hcell')
  obtain ⟨unsorted, hunsorted, h⟩ := bind_eq_ok.mp h
  obtain rfl := pure_eq_ok.mp h
  have hmap := map_name?_of_mapM hunsorted
  refine ⟨pairwise_mergeSort_names unsorted, ?_, ?_⟩
  · have hdistinct : cell.toList.Nodup := by
      refine (Std.TreeSet.distinct_toList (t := cell)).imp ?_
      rintro s t hne rfl
      exact hne Std.ReflCmp.compare_self
    refine (List.mergeSort_perm unsorted _).nodup_iff.mpr (List.Nodup.of_map some ?_)
    rw [← hmap]
    refine hdistinct.map_on ?_
    intro s hs t ht heq
    have hs' : c.grammar.name? s ∈ unsorted.map some := hmap ▸ List.mem_map_of_mem hs
    obtain ⟨x, -, hx⟩ := List.mem_map.mp hs'
    exact name?_injective hx.symm (heq.symm.trans hx.symm)
  · intro x
    have hmem : x ∈ unsorted ↔ some x ∈ cell.toList.map c.grammar.name? := by
      rw [hmap, List.mem_map]
      simp
    rw [List.mem_mergeSort, hmem, List.mem_map]
    simp only [Std.TreeSet.mem_toList]

/-- What derives something is a name of the grammar. -/
theorem Derives.known (h : g.Consistent) {x : String} {ws : List String} (hd : g.Derives x ws) :
    ∃ s, g.symbol? x = some s := by
  cases hd with
  | word hrule => exact h.known _ hrule x List.mem_cons_self
  | split hrule => exact h.known _ hrule x List.mem_cons_self

/-- **The lists of a chart** have the names that derive the words of the spans. -/
theorem recognize_namesAt (h : g.Consistent) (hn : Table.Fits words.length) :
    ∃ r, g.recognize words = .ok r ∧ ∀ i j, i < j → j ≤ words.length →
      ∃ names, r.namesAt ⟨i, j⟩ = .ok names ∧
        AreNames (fun x => g.Derives x (Span.slice ⟨i, j⟩ words)) names := by
  obtain ⟨r, hr, hgrammar, -, hcells⟩ := recognize_cells g hn
  refine ⟨r, hr, ?_⟩
  intro i j hij hj
  have hcell := hcells ⟨i, j⟩ ⟨hij, hj⟩
  obtain ⟨names, hnames⟩ := RecognitionChart.namesAt_eq_ok hcell fun s hs => by
    rw [hgrammar]
    exact id_lt_of_mem_byParts h ⟨hij, hj⟩ hs
  obtain ⟨hordered, hnodup, hmem⟩ := namesAt_spec hcell hnames
  refine ⟨names, hnames, hordered, hnodup, ?_⟩
  intro x
  rw [hmem, hgrammar]
  constructor
  · rintro ⟨s, hs, hx⟩
    obtain ⟨y, hy, hderives⟩ := (mem_byParts_iff h s hij hj).mp hs
    obtain rfl := symbol?_injective hy (symbol?_eq_some_iff.mpr hx)
    exact hderives
  · intro hderives
    obtain ⟨s, hs⟩ := hderives.known h
    exact ⟨s, (mem_byParts_iff h s hij hj).mpr ⟨x, hs, hderives⟩, symbol?_eq_some_iff.mp hs⟩

end ChartParsing.Grammar
