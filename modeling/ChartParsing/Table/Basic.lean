import ChartParsing.Fault
import ChartParsing.Sequencing

/-!
# Triangular tables

A table for `n` words has one cell for each span `i..j` with `i < j ≤ n`. A cell is empty at first
and is written once. The cells lie in one array, row by row: row `i` holds the spans `i..i+1` to
`i..n`, so that it starts after `n + (n - 1) + … + (n - i + 1)` cells.

The number of cells and the places are machine words of 64 bits. As long as `n * (n + 1)` is a
machine word, too, nothing wraps around and each span has a cell of its own. A larger table has
fewer cells than spans, and a place may lie behind the last cell.

* `Table.get`, `Table.set`, `Table.isFilled`: they fail on a span outside the table; reading fails
  on an empty cell and writing on a full one. A write that fails leaves a table, too, so `Table.set`
  gives both.
* `Table.spansOfLength`: the spans of one length, from left to right.
-/

namespace ChartParsing

/-- The place of the span `i..j` in the array of a table for `n` words, for `i < j ≤ n`. The
predecessor of `i` is cut off at zero, so no difference is negative and the formula means the same
over the natural numbers, the integers and machine words that are large enough. -/
@[specialize]
def slot {ι : Type} [Add ι] [Sub ι] [Mul ι] [Div ι] [Max ι] [OfNat ι 1] [OfNat ι 2]
    (n i j : ι) : ι :=
  i * n - i * (max i 1 - 1) / 2 + (j - i - 1)

/-- How many cells a table for `n` words has. -/
@[specialize]
def cellCount {ι : Type} [Add ι] [Mul ι] [Div ι] [OfNat ι 1] [OfNat ι 2] (n : ι) : ι :=
  n * (n + 1) / 2

/-- One value, or none yet, for each span of a sentence. -/
structure Table (α : Type) where
  /-- How many words the sentence has. -/
  size : Nat
  cells : Array (Option α)
deriving DecidableEq

namespace Table

variable {α : Type}

/-- The table for `size` words with no cell written. -/
def empty (size : Nat) : Table α :=
  ⟨size, Array.replicate (cellCount (UInt64.ofNat size)).toNat none⟩

/-- The place of a span of the table. -/
def place (t : Table α) (s : Span) : Except Fault (Fin t.cells.size) :=
  if s.start < s.stop ∧ s.stop ≤ t.size then
    let k := (slot (UInt64.ofNat t.size) (UInt64.ofNat s.start) (UInt64.ofNat s.stop)).toNat
    if h : k < t.cells.size then .ok ⟨k, h⟩ else .error (.beyondCells t.cells.size k)
  else .error (.outside s t.size)

/-- The content of the cell at a place. -/
def cell (t : Table α) (k : Fin t.cells.size) : Option α :=
  t.cells[k]

/-- The table with a value in the cell at a place. -/
def withCell (t : Table α) (k : Fin t.cells.size) (v : α) : Table α :=
  ⟨t.size, t.cells.set k (some v)⟩

/-- Whether the cell of a span is written. -/
def isFilled (t : Table α) (s : Span) : Except Fault Bool := do
  let k ← t.place s
  return (t.cell k).isSome

/-- The value in the cell of a span. -/
def get (t : Table α) (s : Span) : Except Fault α := do
  let k ← t.place s
  match t.cell k with
  | some v => return v
  | none => throw (.unfilled s)

/-- Statements that use a table: what they give, or the fault that ends them, and the table as they
leave it. A fault takes back nothing that was written before it. -/
abbrev Statements (α β : Type) := ExceptT Fault (StateM (Table α)) β

/-- Writes the cell of a span. -/
def write (s : Span) (v : α) : Statements α Unit := do
  let t ← getThe (Table α)
  let k ← t.place s
  if (t.cell k).isSome then throw (.writtenTwice s)
  MonadStateOf.set (t.withCell k v)

/-- What comes of writing the cell of a span, and the table after it. -/
def set (t : Table α) (s : Span) (v : α) : Except Fault Unit × Table α :=
  ((write s v).run.run t).run

/-- The table with the cell of a span written, for a caller that a fault ends, too. -/
def put (t : Table α) (s : Span) (v : α) : Except Fault (Table α) := do
  let (outcome, t') := t.set s v
  outcome
  return t'

/-- The spans of `length` words in a sentence of `size` words, from left to right. -/
def spansOfLength (size length : Nat) : List Span :=
  if length = 0 ∨ size < length then []
  else (List.range (size - length + 1)).map fun i => ⟨i, i + length⟩

end Table

end ChartParsing
