import ChartParsing.Text.Hidden

/-!
# Quoted texts

A text between double quotes, as error reports show it. A backslash stands before a backslash and
before a quotation mark; a tab, a line end and a null have letters of their own; any other character
that does not show is written by its code point.
-/

namespace ChartParsing.Text

/-- The digits of `n` in base sixteen. -/
def hex (n : Nat) : String :=
  String.ofList (Nat.toDigits 16 n)

/-- One character inside double quotes. -/
def escape (c : Char) : String :=
  match c with
  | '\x00' => "\\0"
  | '\t' => "\\t"
  | '\n' => "\\n"
  | '\r' => "\\r"
  | '\\' => "\\\\"
  | '"' => "\\\""
  | c =>
    if isHidden c then "\\u\x7b" ++ hex c.toNat ++ "\x7d"
    else String.singleton c

/-- The text between double quotes. -/
def quoted (s : String) : String :=
  "\"" ++ String.join (s.toList.map escape) ++ "\""

end ChartParsing.Text
