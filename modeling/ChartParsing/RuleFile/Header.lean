import ChartParsing.RuleFile.Lexeme

/-!
# The start header

A rule file may begin with a comment `//** start: X`, which names the start symbol. The rules are
read as if it were any other comment.
-/

namespace ChartParsing.RuleFile

open Text

/-- What follows `part` at the beginning of `s`, where blanks may come first. -/
def after? (part s : List Char) : Option (List Char) :=
  part.isPrefixOf? (s.dropWhile isBlank)

/-- The name in the start header of a text that begins with one. -/
def startHeader? (text : String) : Option String := do
  let s ← after? ['/', '/', '*', '*'] text.toList
  let s ← after? ['s', 't', 'a', 'r', 't', ':'] s
  let (name, _) ← name? (s.dropWhile isBlank)
  return String.ofList name

end ChartParsing.RuleFile
