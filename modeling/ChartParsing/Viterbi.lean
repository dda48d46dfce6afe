import ChartParsing.Grammar.Basic
import ChartParsing.Table.Fill
import ChartParsing.Tree.Basic

/-!
# Best derivations

The Viterbi chart of a sentence tells for every span and non-terminal how good the best derivation
is and how it begins. The score of a derivation is the product of the weights of its rules, a branch
multiplying its own weight with the score of the left part and then with that of the right part.

The scores and the beginnings stand in two tables. Both are filled together, and only the scores are
read meanwhile.

* `Grammar.candidates`: the ways to derive a span from its parts, in a fixed order: by the split,
  then by the left and the right symbol, then by rules.
* `Cell.offer`: a candidate is recorded only if its score is greater than the one in the map of
  scores, so the first of several best candidates stays.
* `ViterbiChart.extract`: the best derivation as a tree, from the backpointers.
-/

namespace ChartParsing

/-- How the best derivation of a symbol over a span begins. -/
inductive Backpointer where
  /-- With the word. -/
  | lexical
  /-- With two symbols, the first up to the split and the second from there on. -/
  | binary (split : Nat) (left right : Symbol)
deriving DecidableEq, Repr

/-- A derivation of a symbol over a span: its score and how it begins. -/
structure Entry where
  score : Float
  back : Backpointer
deriving DecidableEq

/-- The scores of a span, by ascending symbols. -/
abbrev Scores := Std.TreeMap Symbol Float

/-- The backpointers of a span, by ascending symbols. -/
abbrev Backpointers := Std.TreeMap Symbol Backpointer

/-- What is found for a span: in one map the scores, in another one the backpointers. -/
structure Cell where
  scores : Scores
  back : Backpointers

namespace Cell

/-- The cell with nothing found. -/
def empty : Cell :=
  ⟨∅, ∅⟩

/-- The cell with a derivation written for a symbol: its score, then its backpointer. -/
def record (cell : Cell) (symbol : Symbol) (e : Entry) : Cell :=
  let cell := { cell with scores := cell.scores.insert symbol e.score }
  { cell with back := cell.back.insert symbol e.back }

/-- The cell with a candidate for a symbol taken into account. -/
def offer (cell : Cell) (candidate : Symbol × Entry) : Cell :=
  if cell.scores[candidate.1]?.all fun best => best < candidate.2.score then
    cell.record candidate.1 candidate.2
  else cell

/-- The cell of a list of candidates. -/
def ofCandidates (candidates : List (Symbol × Entry)) : Cell :=
  candidates.foldl offer empty

end Cell

/-- The tables of a Viterbi chart. -/
structure ViterbiTables where
  scores : Table Scores
  back : Table Backpointers

namespace ViterbiTables

/-- The tables for `size` words with no cell written. -/
def empty (size : Nat) : ViterbiTables :=
  ⟨.empty size, .empty size⟩

/-- How many words the tables are for. -/
def size (t : ViterbiTables) : Nat :=
  t.scores.size

/-- The tables with what is found for a span: first its scores are written, then its
backpointers. -/
def put (t : ViterbiTables) (s : Span) (cell : Cell) : Except Fault ViterbiTables := do
  let scores ← t.scores.put s cell.scores
  let back ← t.back.put s cell.back
  return ⟨scores, back⟩

end ViterbiTables

/-- The Viterbi chart of a sentence, with the grammar it was made from. -/
structure ViterbiChart where
  grammar : Grammar
  words : List String
  scores : Table Scores
  back : Table Backpointers

namespace Grammar

/-- What is found for a word. A grammar has no two lexical rules with one parent and one word, so
there is nothing to compare. -/
def cellOfWord (g : Grammar) (word : String) : Cell :=
  (g.lexical word).foldl (fun cell p => cell.record p.1 ⟨p.2, .lexical⟩) .empty

/-- The ways to derive a span from its parts. -/
def candidates (g : Grammar) (splits : List (Table.Split Scores)) : List (Symbol × Entry) :=
  splits.flatMap fun p =>
    p.left.toList.flatMap fun b =>
      p.right.toList.flatMap fun c =>
        (g.binary b.1 c.1).map fun a =>
          (a.1, ⟨a.2 * b.2 * c.2, .binary p.position b.1 c.1⟩)

/-- What is found for a span of two words or more. -/
def cellOfSplits (g : Grammar) (splits : List (Table.Split Scores)) : Cell :=
  .ofCandidates (g.candidates splits)

/-- Writes the cells of the word at a position. -/
def fillWord (g : Grammar) (t : ViterbiTables) (w : String × Nat) : Except Fault ViterbiTables :=
  t.put ⟨w.2, w.2 + 1⟩ (g.cellOfWord w.1)

/-- Writes the cells of a span of two words or more. -/
def fillSpan (g : Grammar) (t : ViterbiTables) (s : Span) : Except Fault ViterbiTables := do
  let splits ← t.scores.splits s
  t.put s (g.cellOfSplits splits)

/-- The tables of a sentence with all cells filled. -/
def fillTables (g : Grammar) (words : List String) : Except Fault ViterbiTables :=
  Table.fillInOrder ViterbiTables.size g.fillWord g.fillSpan words (.empty words.length)

/-- The Viterbi chart of a sentence. -/
def bestParse (g : Grammar) (words : List String) : Except Fault ViterbiChart := do
  let tables ← g.fillTables words
  return ⟨g, words, tables.scores, tables.back⟩

end Grammar

/-- Why a chart gives no tree. -/
inductive ExtractError where
  /-- The symbol, given by its name or number, has no derivation over the span. -/
  | noDerivation (symbol : String) (span : Span)
  /-- The chart was used outside its contract. -/
  | fault (fault : Fault)
deriving DecidableEq

/-- What an error says of itself. -/
def ExtractError.message : ExtractError → String
  | noDerivation symbol span => "no derivation of " ++ symbol ++ " over " ++ span.render
  | fault f => f.message

namespace ViterbiChart

/-- How many words the sentence has. -/
def size (c : ViterbiChart) : Nat :=
  c.words.length

/-- Whether the sentence has no words. -/
def isEmpty (c : ViterbiChart) : Bool :=
  c.size = 0

/-- The scores of a span. -/
def cell (c : ViterbiChart) (s : Span) : Except Fault Scores :=
  c.scores.get s

/-- The score of the best derivation of a symbol over a span. -/
def score (c : ViterbiChart) (s : Span) (symbol : Symbol) : Except Fault (Option Float) := do
  return (← c.cell s)[symbol]?

/-- How the best derivation of a symbol over a span begins. -/
def backpointer (c : ViterbiChart) (s : Span) (symbol : Symbol) :
    Except Fault (Option Backpointer) := do
  return (← c.back.get s)[symbol]?

/-- The score of the best derivation of a symbol over the sentence. -/
def probability (c : ViterbiChart) (symbol : Symbol) : Except Fault (Option Float) :=
  if c.isEmpty then return none else c.score ⟨0, c.size⟩ symbol

/-- The score of the best derivation of the sentence from the start symbol. -/
def bestProbability (c : ViterbiChart) : Except Fault (Option Float) :=
  c.probability c.grammar.start

/-- A symbol as messages show it: its name, or its number if it has none. -/
def symbolLabel (c : ViterbiChart) (symbol : Symbol) : String :=
  (c.grammar.name? symbol).getD ("#" ++ toString symbol.id)

/-- A step that may be a fault, within the extraction of a tree. -/
def orFault {α : Type} (x : Except Fault α) : Except ExtractError α :=
  x.mapError ExtractError.fault

/-- The part that is empty or reversed if a split does not lie inside its span. -/
def emptyPart (s : Span) (split : Nat) : Span :=
  if split ≤ s.start then ⟨s.start, split⟩ else ⟨split, s.stop⟩

/-- The best derivation of a symbol over a span. A backpointer whose split lies outside its span
would lead to a span that is no part of the chart; charts have none. -/
def extract (c : ViterbiChart) (symbol : Symbol) (s : Span) : Except ExtractError Tree := do
  match ← orFault (c.backpointer s symbol) with
  | none => throw (.noDerivation (c.symbolLabel symbol) s)
  | some .lexical =>
    let label ← orFault (c.grammar.name symbol)
    match c.words[s.start]? with
    | some word => return .branch label s [.leaf word s]
    | none => throw (.fault (.outside s c.size))
  | some (.binary k left right) =>
    let label ← orFault (c.grammar.name symbol)
    if _h : s.start < k ∧ k < s.stop then
      let l ← c.extract left ⟨s.start, k⟩
      let r ← c.extract right ⟨k, s.stop⟩
      return .branch label s [l, r]
    else throw (.fault (.outside (emptyPart s k) c.scores.size))
termination_by s.length
decreasing_by all_goals simp only [Span.length]; omega

/-- The best derivation of the sentence from the start symbol. -/
def bestTree (c : ViterbiChart) : Except ExtractError Tree :=
  if c.isEmpty then throw (.noDerivation c.grammar.startName ⟨0, 0⟩)
  else c.extract c.grammar.start ⟨0, c.size⟩

/-- The beginning of a longer derivation as text. -/
def renderBackpointer (c : ViterbiChart) : Option Backpointer → Except Fault String
  | some (.binary k left right) => do
    let leftName ← c.grammar.name left
    let rightName ← c.grammar.name right
    return "<" ++ toString k ++ " " ++ leftName ++ " " ++ rightName ++ ">"
  | _ => return ""

/-- A score of a span as text: the name, the score and the backpointer of the same symbol. -/
def renderEntry (c : ViterbiChart) (back : Backpointers) (e : Symbol × Float) :
    Except Fault String := do
  let name ← c.grammar.name e.1
  let pointer ← c.renderBackpointer back[e.1]?
  return " " ++ name ++ "=" ++ FloatStyle.plain.render e.2 ++ pointer

/-- The line for a span: its scores, each with its backpointer. -/
def renderSpan (c : ViterbiChart) (s : Span) : Except Fault String := do
  let back ← c.back.get s
  let scores ← c.cell s
  let entries ← scores.toList.mapM (c.renderEntry back)
  return "  " ++ s.render ++ ":" ++ String.join entries ++ "\n"

/-- The lines for the spans of one length, under a heading. -/
def renderLength (c : ViterbiChart) (length : Nat) : Except Fault String := do
  let lines ← (Table.spansOfLength c.size length).mapM c.renderSpan
  return "Length " ++ toString length ++ ":\n" ++ String.join lines

/-- The chart as text, by the lengths of the spans. -/
def render (c : ViterbiChart) : Except Fault String := do
  let blocks ← (List.range' 1 c.size).mapM c.renderLength
  return String.join blocks

end ViterbiChart

end ChartParsing
