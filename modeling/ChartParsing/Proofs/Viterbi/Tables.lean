import ChartParsing.Proofs.Table.Map
import ChartParsing.Proofs.Viterbi.Candidates

/-!
# The two tables of a Viterbi chart

The scores and the backpointers of a span are written into two tables, one after the other, and only
the table of scores is read during the fill.  Still the two tables belong together: they are the
parts of one table of cells, filled by the steps of the recursion over spans.  So what holds of this
one table holds of both, and in every cell the two maps are in step.

* `put_ofCells`, `fillWord_ofCells`, `fillSpan_ofCells`: a step of the fill writes the two parts of
  a cell.
* `fillTables_eq`: so does the whole fill.
* `viterbiCell`, `inStep_viterbiCell`: the cells, and that their maps are in step.
-/

namespace ChartParsing

namespace ViterbiTables

/-- The tables of the scores and of the backpointers in a table of cells. -/
def ofCells (t : Table Cell) : ViterbiTables :=
  ⟨t.map Cell.scores, t.map Cell.back⟩

theorem ofCells_empty (n : Nat) : ofCells (.empty n) = empty n := by
  rw [ofCells, Table.map_empty, Table.map_empty]
  rfl

/-- **Two writes are one write of a cell.**  They succeed together: each of the two tables has the
span written just when the other one has. -/
theorem put_ofCells (t : Table Cell) (s : Span) (cell : Cell) :
    (ofCells t).put s cell = (t.put s cell).map ofCells := by
  rw [put, ofCells, Table.put_map, Table.put_map]
  cases t.put s cell <;> rfl

end ViterbiTables

namespace Grammar

open ViterbiTables

variable {g : Grammar} {words : List String}

/-- What is found for a span whose parts have these cells. -/
def cellOfParts (g : Grammar) (parts : List (Table.Split Cell)) : Cell :=
  g.cellOfSplits (parts.map (Table.Split.map Cell.scores))

/-! ## The fill -/

theorem fillWord_ofCells (g : Grammar) (t : Table Cell) (w : String × Nat) :
    g.fillWord (ofCells t) w = (Table.fillWord g.cellOfWord t w).map ofCells :=
  put_ofCells t _ _

theorem fillSpan_ofCells (g : Grammar) (t : Table Cell) (s : Span) :
    g.fillSpan (ofCells t) s = (Table.fillSpan g.cellOfParts t s).map ofCells := by
  rw [fillSpan, Table.fillSpan, show (ofCells t).scores = t.map Cell.scores from rfl,
    Table.splits_map]
  cases t.splits s with
  | error e => rfl
  | ok parts => exact put_ofCells t s (g.cellOfParts parts)

/-- **The fill of the two tables** is the fill of one table of cells. -/
theorem fillTables_eq (g : Grammar) (words : List String) :
    g.fillTables words = (Table.fill g.cellOfWord g.cellOfParts words).map ofCells := by
  rw [fillTables, Table.fill, ← ofCells_empty]
  exact Table.fillInOrder_map ofCells (fun _ => rfl) (fillWord_ofCells g) (fillSpan_ofCells g)
    words _

theorem exists_cells_of_fillTables {t : ViterbiTables} (h : g.fillTables words = .ok t) :
    ∃ cells, Table.fill g.cellOfWord g.cellOfParts words = .ok cells ∧ t = ofCells cells := by
  rw [fillTables_eq] at h
  cases hfill : Table.fill g.cellOfWord g.cellOfParts words with
  | error e =>
    rw [hfill] at h
    exact absurd h (by simp [Except.map])
  | ok cells =>
    rw [hfill] at h
    exact ⟨cells, rfl, (Except.ok.inj h).symm⟩

/-- **Both tables are filled, each cell by one write.** -/
theorem fillTables_filledOnce (hn : Table.Fits words.length) {t : ViterbiTables}
    (h : g.fillTables words = .ok t) :
    t.scores.FilledOnce words.length ∧ t.back.FilledOnce words.length := by
  obtain ⟨cells, hcells, rfl⟩ := exists_cells_of_fillTables h
  have hfilled := Table.fill_filledOnce hn hcells
  exact ⟨hfilled.map Cell.scores, hfilled.map Cell.back⟩

/-! ## Cells -/

theorem inStep_cellOfWord (g : Grammar) (w : String) : (g.cellOfWord w).InStep := by
  have aux : ∀ (ps : List WeightedParent) (cell : Cell), cell.InStep →
      (ps.foldl (fun cell p => cell.record p.1 ⟨p.2, .lexical⟩) cell).InStep := by
    intro ps
    induction ps with
    | nil => exact fun _ h => h
    | cons p ps ih => exact fun cell h => ih _ (Cell.inStep_record h p.1 ⟨p.2, .lexical⟩)
  exact aux (g.lexical w) .empty Cell.inStep_empty

theorem inStep_cellOfParts (g : Grammar) (parts : List (Table.Split Cell)) :
    (g.cellOfParts parts).InStep :=
  Cell.inStep_ofCandidates _

/-- The cell of a span by recursion on its length. -/
def viterbiCell (g : Grammar) (words : List String) (s : Span) : Cell :=
  Table.byParts g.cellOfWord g.cellOfParts words s

/-- **In every cell the two maps are in step.** -/
theorem inStep_viterbiCell (g : Grammar) (words : List String) (s : Span) :
    (g.viterbiCell words s).InStep := by
  rw [viterbiCell, Table.byParts]
  split
  · exact inStep_cellOfWord g _
  · exact inStep_cellOfParts g _

end Grammar

end ChartParsing
