import ChartParsing.Probability

/-!
# Rules

A rule replaces a non-terminal, its parent, by a list of items. Any list can be written down;
a grammar takes only the rules of the two well-formed kinds, `X -> word` and `X -> Y Z`.
-/

namespace ChartParsing

/-- An item of a right-hand side. -/
inductive Item where
  /-- A word of a sentence. -/
  | word (text : String)
  /-- A non-terminal, by its name. -/
  | nonterminal (name : String)
deriving DecidableEq, Repr

namespace Item

/-- The word or the name. -/
def text : Item → String
  | word text => text
  | nonterminal name => name

/-- Whether `c` may stand in a bare name: an ASCII letter or digit, a hyphen or an underscore. -/
def isNameChar (c : Char) : Bool :=
  c.isAlphanum || c == '-' || c == '_'

/-- Whether a word can do without quotes: it is a bare name, and it does not start with an
upper-case letter, which would make it a non-terminal. Only ASCII letters pass the first test, so
`Char.isUpper` knows every upper-case letter that counts. -/
def isBareWord (s : List Char) : Bool :=
  match s with
  | [] => false
  | c :: _ => !c.isUpper && s.all isNameChar

/-- The item as a rule file has it. -/
def render : Item → String
  | word text => if isBareWord text.toList then text else "\"" ++ text ++ "\""
  | nonterminal name => name

end Item

/-- A rule as written down. -/
structure Rule where
  /-- The non-terminal that is replaced. -/
  parent : String
  /-- The right-hand side. -/
  items : List Item
  /-- The probability, if the rule has one. -/
  prob : Option Probability
deriving BEq, Repr

namespace Rule

/-- The rule `parent -> word`. -/
def lexical (parent word : String) (prob : Option Probability) : Rule :=
  ⟨parent, [.word word], prob⟩

/-- The rule `parent -> left right`. -/
def binary (parent left right : String) (prob : Option Probability) : Rule :=
  ⟨parent, [.nonterminal left, .nonterminal right], prob⟩

/-- The rule as a rule file has it, without the semicolon. -/
def render (r : Rule) : String :=
  r.parent ++ " ->" ++ String.join (r.items.map fun i => " " ++ i.render) ++
    match r.prob with
    | none => ""
    | some p => " [" ++ p.render ++ "]"

end Rule

end ChartParsing
