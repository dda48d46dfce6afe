import ChartParsing.Text.Blank

/-!
# The words of a sentence

A text is split at each blank and each ASCII punctuation character. The pieces that are not empty
are its words.
-/

namespace ChartParsing

open Text

/-- The punctuation characters of ASCII. -/
def isPunctuation (c : Char) : Bool :=
  inRanges [(0x21, 0x2F), (0x3A, 0x40), (0x5B, 0x60), (0x7B, 0x7E)] c

/-- Whether `c` separates words. -/
def isSeparator (c : Char) : Bool :=
  isBlank c || isPunctuation c

/-- The words of a text: the pieces between its separators that are not empty. -/
def tokenize (text : String) : List String :=
  ((text.toList.splitOnP isSeparator).filter fun w => !w.isEmpty).map String.ofList

end ChartParsing
