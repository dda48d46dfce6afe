/-!
# Faults

A fault is a use of tables and charts that breaks their contract: a span that is not in the
table, a cell read too early or written twice, a symbol that the grammar does not have. Faults are
told apart from answers such as "no derivation".
-/

namespace ChartParsing

/-- The words from position `start` up to, but not including, position `stop`. -/
structure Span where
  start : Nat
  stop : Nat
deriving DecidableEq, Repr

namespace Span

/-- How many words a span has. -/
def length (s : Span) : Nat :=
  s.stop - s.start

/-- The two ends with two points between them. -/
def render (s : Span) : String :=
  toString s.start ++ ".." ++ toString s.stop

end Span

/-- A use outside the contract. -/
inductive Fault where
  /-- The span is empty, reversed or ends after the last of `size` words. -/
  | outside (span : Span) (size : Nat)
  /-- A cell was read before it was written. -/
  | unfilled (span : Span)
  /-- A cell was written a second time. -/
  | writtenTwice (span : Span)
  /-- The place of a span lies behind the last of `count` cells. -/
  | beyondCells (count place : Nat)
  /-- The grammar has only `count` symbols. -/
  | unknownSymbol (count id : Nat)
deriving DecidableEq, Repr

/-- What an access behind the last of `count` elements says of itself. -/
def outOfBounds (count index : Nat) : String :=
  "index out of bounds: the len is " ++ toString count ++ " but the index is " ++ toString index

/-- What a fault says of itself. -/
def Fault.message : Fault → String
  | outside span size =>
    "span " ++ span.render ++ " is outside the table for " ++ toString size ++ " words"
  | unfilled span => "read of unfilled cell " ++ span.render
  | writtenTwice span => "cell " ++ span.render ++ " written twice"
  | beyondCells count place => outOfBounds count place
  | unknownSymbol count id => outOfBounds count id

end ChartParsing
