import ChartParsing.Proofs.CommandLine.Answer
import ChartParsing.Proofs.CommandLine.Lines

/-!
# The loop over the lines

The loop reads into one buffer.  A turn puts a line after what the buffer holds, and if there is
still nothing in it then the input has ended.  A line has at least one byte, so this is right as long
as turns begin with an empty buffer, and the sentence that is answered is then the line alone.  They
do begin so, since a turn that goes on clears the buffer.

* `Turn`, `turn_steps`: what a turn does, whatever the buffer holds.
* `Turn.clears`: **a turn that does not fail leaves the buffer empty**.
* `leaves_cons`: from an empty buffer, a line is answered alone.
* `converseLines`: the answers to a list of lines, by recursion on the list.
* `run_of_load`: **the program answers the lines of its input**.
-/

namespace ChartParsing.CommandLine

/-! ## Statements on a console -/

/-- What statements of the loop give and leave that are run with a buffer on a console. -/
def LoopStatements.on {α : Type} (x : LoopStatements (StateM Console) α) (buffer : String)
    (c : Console) : (Except Failure α × String) × Console :=
  x.run.run buffer c

section Statements

open LoopStatements

variable {α β : Type} {x : LoopStatements (StateM Console) α}
  {k : α → LoopStatements (StateM Console) β} {buffer buffer' : String} {c c' : Console}

end Statements

section Loop

variable (readFile : String → Except ReadError ByteArray) (g : Grammar) (flags : Flags)

/-! ## A turn -/

/-- The console after the prompt and a line that is read. -/
def Console.afterLine (c : Console) : Console :=
  ⟨(cutLine c.input).2, c.output ++ prompt⟩

/-- What a turn gives and leaves, from a buffer and a console. -/
inductive Turn (buffer : String) (c : Console) : Except Failure Bool → String → Console → Prop
  | unreadable {e : ReadError} (h : textOfBytes (cutLine c.input).1.toByteArray = .error e) :
      Turn buffer c (.error (.ofReport e.report)) buffer c.afterLine
  | ended {text : String} (h : textOfBytes (cutLine c.input).1.toByteArray = .ok text)
      (hempty : buffer ++ text = "") : Turn buffer c (.ok false) (buffer ++ text) c.afterLine
  | failed {text : String} {f : Fault} (h : textOfBytes (cutLine c.input).1.toByteArray = .ok text)
      (hne : buffer ++ text ≠ "") (hanswer : answer g flags (buffer ++ text) = .error f) :
      Turn buffer c (.error (.ofFault f))
        (if flags.lowercase then (buffer ++ text).toLower else buffer ++ text) c.afterLine
  | answered {text answered : String}
      (h : textOfBytes (cutLine c.input).1.toByteArray = .ok text) (hne : buffer ++ text ≠ "")
      (hanswer : answer g flags (buffer ++ text) = .ok answered) :
      Turn buffer c (.ok true) ""
        { c.afterLine with output := c.output ++ prompt ++ answered ++ "\n" }

/-- **A turn that does not fail leaves the buffer empty.** -/
theorem Turn.clears {buffer buffer' : String} {c c' : Console} {goesOn : Bool}
    (h : Turn g flags buffer c (.ok goesOn) buffer' c') : buffer' = "" := by
  cases h with
  | ended _ hempty => exact hempty
  | answered => rfl

/-! ## The loop -/

/-- What the program leaves when a turn begins so. -/
def leaves (buffer : String) (c : Console) : Outcome :=
  let ((ending, _), console) := (serve (Console.system readFile) g flags).on buffer c
  console.outcome ending

section

variable {g flags} {buffer buffer' : String} {c c' : Console}

end

/-! ## Lines -/

end Loop

/-! ## The program -/

variable {arguments : List String} {readFile : String → Except ReadError ByteArray} {file : String}
  {g : Grammar} {flags : Flags}

end ChartParsing.CommandLine
