import ChartParsing.Grammar.Basic
import ChartParsing.RuleFile.Header
import ChartParsing.RuleFile.Reader

/-!
# Grammars from rule files

The start symbol of a grammar that is read from a rule file is that of the start header, or else the
parent of the first rule.
-/

namespace ChartParsing

/-- Why a text gives no grammar. -/
inductive SourceError where
  /-- The text is no rule file. -/
  | malformed (error : SyntaxError)
  /-- The rules make no grammar. -/
  | invalid (error : GrammarError)

/-- What an error says of itself. -/
def SourceError.message : SourceError → String
  | malformed e => "syntax error: " ++ e.message
  | invalid e => e.message

/-- The grammar of a rule file. -/
def Grammar.ofText (text : String) : Except SourceError Grammar := do
  let rules ← (RuleFile.readRules text).mapError SourceError.malformed
  let g ← (Grammar.ofRules rules).mapError SourceError.invalid
  match RuleFile.startHeader? text with
  | some name => (g.withStart name).mapError SourceError.invalid
  | none => return g

end ChartParsing
