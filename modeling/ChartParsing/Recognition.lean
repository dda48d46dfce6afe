import ChartParsing.Grammar.Basic
import ChartParsing.Table.Fill
import Std.Data.TreeSet.Lemmas

/-!
# Recognition

The recognition chart of a sentence tells for every span which non-terminals derive its words. A
word is derived by the parents that the grammar gives it; a longer span by the parents of any two
symbols that derive its two parts, wherever it is split.
-/

namespace ChartParsing

/-- A set of symbols, in ascending order. -/
abbrev SymbolSet := Std.TreeSet Symbol

/-- The recognition chart of a sentence, with the grammar it was made from. -/
structure RecognitionChart where
  grammar : Grammar
  table : Table SymbolSet

namespace Grammar

/-- The symbols that derive a word. -/
def symbolsOfWord (g : Grammar) (word : String) : SymbolSet :=
  .ofList ((g.lexical word).map Prod.fst)

/-- The symbols that derive a span through one of its splits. -/
def symbolsOfSplits (g : Grammar) (splits : List (Table.Split SymbolSet)) : SymbolSet :=
  .ofList <| splits.flatMap fun p =>
    p.left.toList.flatMap fun b =>
      p.right.toList.flatMap fun c =>
        (g.binary b c).map Prod.fst

/-- The recognition chart of a sentence. -/
def recognize (g : Grammar) (words : List String) : Except Fault RecognitionChart := do
  let table ← Table.fill g.symbolsOfWord g.symbolsOfSplits words
  return ⟨g, table⟩

end Grammar

namespace RecognitionChart

/-- How many words the sentence has. -/
def size (c : RecognitionChart) : Nat :=
  c.table.size

/-- Whether the sentence has no words. -/
def isEmpty (c : RecognitionChart) : Bool :=
  c.size = 0

/-- The symbols that derive a span. -/
def cell (c : RecognitionChart) (s : Span) : Except Fault SymbolSet :=
  c.table.get s

/-- The names of the symbols that derive a span, in the order of the names. -/
def namesAt (c : RecognitionChart) (s : Span) : Except Fault (List String) := do
  let names ← (← c.cell s).toList.mapM c.grammar.name
  return names.mergeSort fun a b => decide (a ≤ b)

/-- Whether a symbol derives the sentence. Nothing derives the empty one. -/
def derives (c : RecognitionChart) (symbol : Symbol) : Except Fault Bool := do
  if c.isEmpty then return false
  else return (← c.cell ⟨0, c.size⟩).contains symbol

/-- Whether the start symbol derives the sentence. -/
def accepts (c : RecognitionChart) : Except Fault Bool :=
  c.derives c.grammar.start

/-- The line for a span: the names of the symbols that derive it. -/
def renderSpan (c : RecognitionChart) (s : Span) : Except Fault String := do
  let names ← c.namesAt s
  return "  " ++ s.render ++ ":" ++ String.join (names.map (" " ++ ·)) ++ "\n"

/-- The lines for the spans of one length, under a heading. -/
def renderLength (c : RecognitionChart) (length : Nat) : Except Fault String := do
  let lines ← (Table.spansOfLength c.size length).mapM c.renderSpan
  return "Length " ++ toString length ++ ":\n" ++ String.join lines

/-- The chart as text, by the lengths of the spans. -/
def render (c : RecognitionChart) : Except Fault String := do
  let blocks ← (List.range' 1 c.size).mapM c.renderLength
  return String.join blocks

end RecognitionChart

/-- Whether a grammar accepts a sentence. -/
def Grammar.accepts (g : Grammar) (words : List String) : Except Fault Bool := do
  let chart ← g.recognize words
  chart.accepts

end ChartParsing
