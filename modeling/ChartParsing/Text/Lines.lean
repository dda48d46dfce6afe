/-!
# Lines

A text is cut into lines at its line feeds. A carriage return right before a line feed belongs
to the line end; any other one belongs to the line. A last line may lack its line end.
-/

namespace ChartParsing.Text

/-- The lines of a text, without their line ends. -/
def lines : List Char → List (List Char)
  | [] => []
  | '\n' :: s => [] :: lines s
  | '\r' :: '\n' :: s => [] :: lines s
  | c :: s =>
    match lines s with
    | [] => [[c]]
    | l :: ls => (c :: l) :: ls

/-- The first line of a text, or nothing for the empty text. -/
def firstLine (s : List Char) : List Char :=
  (lines s).headD []

theorem lines_nil : lines [] = [] := rfl

theorem lines_newline (s : List Char) : lines ('\n' :: s) = [] :: lines s := by
  simp [lines]

end ChartParsing.Text
