import ChartParsing.Grammar.File
import ChartParsing.Text.Quoted

/-!
# Error reports

An error that ends the program is reported as a record: the name of the error and its fields, texts
in quotes.
-/

namespace ChartParsing

/-- A record: a name and its fields with their values. -/
def record (name : String) (fields : List (String × String)) : String :=
  name ++ " \x7b " ++ ", ".intercalate (fields.map fun f => f.1 ++ ": " ++ f.2) ++ " \x7d"

/-- A name that holds one value. -/
def tagged (name value : String) : String :=
  name ++ "(" ++ value ++ ")"

/-- The record of an error of the operating system or of the library that reads. -/
def ReadError.report (e : ReadError) : String :=
  match e with
  | system s =>
    record "Os" [("code", toString s.code), ("kind", s.kind), ("message", Text.quoted s.text)]
  | nullInPath => record "Error" [("kind", "InvalidInput"), ("message", Text.quoted e.message)]
  | notUtf8 => record "Error" [("kind", "InvalidData"), ("message", Text.quoted e.message)]

/-- The record of an error in a list of rules. -/
def GrammarError.report : GrammarError → String
  | empty => "Empty"
  | arity rule => record "Arity" [("rule", Text.quoted rule.render)]
  | probability rule prob =>
    record "Probability"
      [("rule", Text.quoted rule.render), ("prob", FloatStyle.report.renderBits prob.bits)]
  | mixedWeights rule => record "MixedWeights" [("rule", Text.quoted rule.render)]
  | unknownStart name => tagged "UnknownStart" (Text.quoted name)

/-- The record of an error in a text. -/
def SourceError.report : SourceError → String
  | malformed e => tagged "Syntax" (Text.quoted e.message)
  | invalid e => e.report

/-- The record of an error in a file. -/
def LoadError.report : LoadError → String
  | unreadable path e => record "Io" [("path", Text.quoted path), ("source", e.report)]
  | source e => e.report

end ChartParsing
