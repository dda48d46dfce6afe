import ChartParsing.Fault
import ChartParsing.Grammar.Builder

/-!
# Grammars

A grammar is made from a list of rules. It numbers the non-terminals, keeps one rule for each parent
and right-hand side, and finds the parents of a word or of a pair of symbols by an index.

* `Grammar.ofRules`: the grammar of a list of rules, or what is wrong with the list.
* `Grammar.lexical`, `Grammar.binary`: parents with their weights, in rule order.
-/

namespace ChartParsing

/-- The rule `parent -> word`, with its parent as a symbol. -/
structure LexicalRule where
  parent : Symbol
  word : String
  prob : Option Probability

/-- The rule `parent -> left right`, with symbols for names. -/
structure BinaryRule where
  parent : Symbol
  left : Symbol
  right : Symbol
  prob : Option Probability

namespace Rule

/-- The rule as a lexical rule, if it is one. -/
def lexical? (symbols : SymbolTable) (r : Rule) : Option LexicalRule :=
  match r.items with
  | [.word word] => do
    let parent ← symbols.find? r.parent
    return ⟨parent, word, r.prob⟩
  | _ => none

/-- The rule as a binary rule, if it is one. -/
def binary? (symbols : SymbolTable) (r : Rule) : Option BinaryRule :=
  match r.items with
  | [.nonterminal left, .nonterminal right] => do
    let parent ← symbols.find? r.parent
    let left ← symbols.find? left
    let right ← symbols.find? right
    return ⟨parent, left, right, r.prob⟩
  | _ => none

end Rule

/-- A grammar of lexical and binary rules. -/
structure Grammar where
  symbols : SymbolTable
  /-- The rules, one for each parent and right-hand side. -/
  rules : List Rule
  /-- Whether the rules have probabilities. -/
  weighted : Bool
  start : Symbol
  start_known : start.id < symbols.names.size
  /-- The parents of a word. -/
  parentsOfWord : Std.TreeMap String (List WeightedParent)
  /-- The parents of two symbols. -/
  parentsOfPair : Std.TreeMap (Symbol × Symbol) (List WeightedParent) Symbol.comparePairs

namespace Grammar

/-- The grammar of the rules of a list that are kept. The first symbol is the start symbol. -/
def ofBuilder (weighted : Bool) (b : Builder) (h : 0 < b.symbols.size) : Grammar :=
  let indexes := Indexes.ofKept b.kept
  { symbols := b.symbols
    rules := b.kept.toList.map Prod.snd
    weighted
    start := ⟨0⟩
    start_known := h
    parentsOfWord := indexes.words
    parentsOfPair := indexes.pairs }

/-- The grammar of a list of rules, or the error of the first rule that has one. A rule without
probability has one as soon as any rule of the list has a probability. -/
def ofRules : List Rule → Except GrammarError Grammar
  | [] => .error .empty
  | first :: rest =>
    let weighted := (first :: rest).any fun r => r.prob.isSome
    match h : (first :: rest).foldlM (Builder.add weighted) .empty with
    | .error e => .error e
    | .ok b => .ok (ofBuilder weighted b (Builder.size_pos_of_foldlM first rest h))

/-- The symbol of a name. -/
def symbol? (g : Grammar) (name : String) : Option Symbol :=
  g.symbols.find? name

/-- The name of a symbol, if the grammar has it. -/
def name? (g : Grammar) (s : Symbol) : Option String :=
  g.symbols.name? s

/-- How many symbols the grammar has. -/
def symbolCount (g : Grammar) : Nat :=
  g.symbols.size

/-- The name of a symbol, which the grammar has to have. -/
def name (g : Grammar) (s : Symbol) : Except Fault String :=
  match g.name? s with
  | some name => .ok name
  | none => .error (.unknownSymbol g.symbolCount s.id)

/-- The name of the start symbol. -/
def startName (g : Grammar) : String :=
  have := g.start_known
  g.symbols.names[g.start.id]

/-- The same grammar with another start symbol. -/
def withStart (g : Grammar) (name : String) : Except GrammarError Grammar :=
  match h : g.symbols.find? name with
  | some s => .ok { g with start := s, start_known := SymbolTable.id_lt_size_of_find? h }
  | none => .error (.unknownStart name)

/-- The parents of a word, in rule order. -/
def lexical (g : Grammar) (word : String) : List WeightedParent :=
  g.parentsOfWord.getD word []

/-- The parents of two symbols, in rule order. -/
def binary (g : Grammar) (left right : Symbol) : List WeightedParent :=
  g.parentsOfPair.getD (left, right) []

/-- Whether there is a rule `parent -> word`. -/
def hasLexical (g : Grammar) (parent : Symbol) (word : String) : Bool :=
  (g.lexical word).any fun p => p.1 = parent

/-- Whether there is a rule `parent -> left right`. -/
def hasBinary (g : Grammar) (parent left right : Symbol) : Bool :=
  (g.binary left right).any fun p => p.1 = parent

/-- The lexical rules, in rule order. -/
def lexicalRules (g : Grammar) : List LexicalRule :=
  g.rules.filterMap (Rule.lexical? g.symbols)

/-- The binary rules, in rule order. -/
def binaryRules (g : Grammar) : List BinaryRule :=
  g.rules.filterMap (Rule.binary? g.symbols)

/-- The grammar as a rule file: a line that names the start symbol, then one line for each rule. -/
def render (g : Grammar) : String :=
  "//** start: " ++ g.startName ++ "\n" ++
    String.join (g.rules.map fun r => r.render ++ ";\n")

end Grammar

end ChartParsing
