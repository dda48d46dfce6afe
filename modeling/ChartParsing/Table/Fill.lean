import ChartParsing.Table.Basic

/-!
# Filling a table from the words upwards

The cell of one word depends on the word alone. The cell of a longer span depends on the cells of
its parts: a split at `k` cuts the span `i..j` into `i..k` and `k..j`. So the cells are filled in
the order of the lengths of their spans.
-/

namespace ChartParsing.Table

variable {α : Type}

/-- A place where a span is cut in two, with the cells of the two parts. -/
structure Split (α : Type) where
  position : Nat
  left : α
  right : α

/-- The splits of a span, from left to right. -/
def splits (t : Table α) (s : Span) : Except Fault (List (Split α)) :=
  (List.range' (s.start + 1) (s.length - 1)).mapM fun k => do
    let left ← t.get ⟨s.start, k⟩
    let right ← t.get ⟨k, s.stop⟩
    return ⟨k, left, right⟩

/-- Writes the cell of the word at a position. -/
def fillWord (ofWord : String → α) (t : Table α) (w : String × Nat) : Except Fault (Table α) :=
  t.put ⟨w.2, w.2 + 1⟩ (ofWord w.1)

/-- Writes the cell of a span of two words or more. -/
def fillSpan (ofSplits : List (Split α) → α) (t : Table α) (s : Span) :
    Except Fault (Table α) := do
  let parts ← t.splits s
  t.put s (ofSplits parts)

section Order

variable {σ : Type}

/-- Handles all spans of one length in a table for `size` words, from left to right. -/
def fillLength (size : σ → Nat) (span : σ → Span → Except Fault σ) (t : σ) (length : Nat) :
    Except Fault σ :=
  (spansOfLength (size t) length).foldlM span t

/-- Handles the words and then the spans of two words or more, by their lengths. What is filled may
be one table or several, as long as they are for `size` words. -/
def fillInOrder (size : σ → Nat) (word : σ → String × Nat → Except Fault σ)
    (span : σ → Span → Except Fault σ) (words : List String) (t : σ) : Except Fault σ := do
  let t ← words.zipIdx.foldlM word t
  (List.range' 2 (words.length - 1)).foldlM (fillLength size span) t

end Order

/-- The table of a sentence with all cells filled. -/
def fill (ofWord : String → α) (ofSplits : List (Split α) → α) (words : List String) :
    Except Fault (Table α) :=
  fillInOrder size (fillWord ofWord) (fillSpan ofSplits) words (empty words.length)

end ChartParsing.Table
