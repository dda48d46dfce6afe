import ChartParsing.RuleFile.Lexeme

/-!
# What can be wrong with the text of a rule file

Most errors show the text at the place where reading stopped.
-/

namespace ChartParsing

/-- Why a text is no rule file. In each case `here` is the beginning of the text that is left. -/
inductive SyntaxError where
  /-- There is neither a name nor a quoted word. -/
  | expectedName (here : String)
  /-- The arrow after the parent is missing. -/
  | expectedArrow (here : String)
  /-- There is no numeral after an opening bracket. -/
  | expectedNumeral (here : String)
  /-- The character `c` is missing. -/
  | expectedChar (c : Char) (here : String)
  /-- A rule starts with a word. -/
  | wordAsParent (word here : String)
  /-- The text ends within a rule. -/
  | unterminated (parent : String)
  /-- A right-hand side has no items. -/
  | emptyAlternative (parent here : String)
  /-- A numeral has no digits or too many points. -/
  | badNumeral (numeral : String)
deriving DecidableEq, Repr

/-- What an error says of itself. -/
def SyntaxError.message : SyntaxError → String
  | expectedName here => "expected a name at `" ++ here ++ "`"
  | expectedArrow here => "expected `->` at `" ++ here ++ "`"
  | expectedNumeral here => "expected a probability at `" ++ here ++ "`"
  | expectedChar c here => "expected `" ++ String.singleton c ++ "` at `" ++ here ++ "`"
  | wordAsParent word here =>
    "expected a non-terminal, got terminal `" ++ word ++ "` at `" ++ here ++ "`"
  | unterminated parent => "unterminated rule for " ++ parent
  | emptyAlternative parent here => "empty alternative for " ++ parent ++ " at `" ++ here ++ "`"
  | badNumeral numeral => "bad probability `" ++ numeral ++ "`: invalid float literal"

end ChartParsing
