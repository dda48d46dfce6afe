import ChartParsing.CommandLine.Arguments
import ChartParsing.CommandLine.Report
import ChartParsing.Recognition
import ChartParsing.Sentence
import ChartParsing.Tree.Printer
import ChartParsing.Viterbi

/-!
# The program

The program loads a grammar and answers one sentence after the other, a prompt before each. It ends
at the end of the input, or at a line that is not UTF-8.

The lines are read into one buffer. A line is put after what the buffer holds, and when the buffer is
empty after that, the input has ended; so the buffer has to be cleared after each answer.

* `answerSentence`: what is printed for a sentence.
* `turn`, `serve`: one turn of the loop over the lines, and the loop.
* `program`: the whole program, for any `System` that prints and reads.
* `run`: the program on a `Console`, which keeps what is printed.
-/

namespace ChartParsing.CommandLine

/-- How a program ends early: the exit code and the text on standard error. -/
structure Failure where
  code : Nat
  errors : String
deriving DecidableEq, Repr

/-- What a program leaves: the exit code and the texts on standard output and standard error. -/
structure Outcome where
  code : Nat
  output : String
  errors : String
deriving DecidableEq, Repr

/-- The outcome of a failure after `output` was printed. -/
def Failure.after (f : Failure) (output : String) : Outcome :=
  ⟨f.code, output, f.errors⟩

/-- The failure of an error that is reported as a record. -/
def Failure.ofReport (report : String) : Failure :=
  ⟨1, "Error: " ++ report ++ "\n"⟩

/-- The failure of a fault. Only a sentence with more words than a table has room for leads to
one. -/
def Failure.ofFault (f : Fault) : Failure :=
  ⟨101, f.message ++ "\n"⟩

/-- The prompt before a sentence. -/
def prompt : String := "> "

/-- The recognition chart, if charts are printed. -/
def chartBlock (flags : Flags) (c : RecognitionChart) : Except Fault String := do
  if flags.chart then return "chart:\n" ++ (← c.render) ++ "\n" else return ""

/-- Whether the sentence is in the language. -/
def verdict (g : Grammar) (accepted : Bool) : String :=
  if accepted then "accepted\n" else "not accepted: no derivation from " ++ g.startName ++ "\n"

/-- The Viterbi chart, if charts are printed and the rules have probabilities. -/
def viterbiBlock (flags : Flags) (c : ViterbiChart) : Except Fault String := do
  if flags.chart && c.grammar.weighted then return "viterbi chart:\n" ++ (← c.render) ++ "\n"
  else return ""

/-- The best probability, if the rules have probabilities. -/
def probabilityLine (c : ViterbiChart) : Except Fault String := do
  match ← c.bestProbability with
  | some p =>
    if c.grammar.weighted then return "best probability: " ++ FloatStyle.plain.render p ++ "\n"
    else return ""
  | none => return ""

/-- The best tree, if trees are printed. -/
def treeBlock (flags : Flags) (c : ViterbiChart) : Except Fault String :=
  if flags.tree then
    match c.bestTree with
    | .ok t => .ok (t.render ++ "\n")
    | .error (.fault f) => .error f
    | .error e => .ok (e.message ++ "\n")
  else .ok ""

/-- What follows the verdict on a sentence that is accepted. -/
def details (g : Grammar) (flags : Flags) (words : List String) : Except Fault String := do
  if g.weighted || flags.tree then
    let best ← g.bestParse words
    return (← viterbiBlock flags best) ++ (← probabilityLine best) ++ (← treeBlock flags best)
  else return ""

/-- What is printed for the words of a sentence. -/
def answerWords (g : Grammar) (flags : Flags) (words : List String) : Except Fault String := do
  let chart ← g.recognize words
  let block ← chartBlock flags chart
  let accepted ← chart.accepts
  if accepted then return block ++ verdict g true ++ (← details g flags words)
  else return block ++ verdict g false

/-- What is printed for a sentence. -/
def answerSentence (g : Grammar) (flags : Flags) (sentence : String) : Except Fault String :=
  answerWords g flags (tokenize sentence)

/-- The grammar in a file of which `content` was read, with the start symbol of the options. -/
def load (file : String) (flags : Flags) (content : Except ReadError ByteArray) :
    Except Failure Grammar :=
  match Grammar.ofFile file content with
  | .error e => .error (.ofReport e.report)
  | .ok g =>
    match flags.start with
    | none => .ok g
    | some name => (g.withStart name).mapError fun e => .ofReport e.report

/-- The failure of arguments that are refused. -/
def Failure.ofArgumentError (program : String) (e : ArgumentError) : Failure :=
  ⟨255, "argument error: " ++ e.message ++ ".\n\n" ++ usage program ++ "\n"⟩

/-- The name by which the program was called. -/
def programName (arguments : List String) : String :=
  arguments.headD defaultProgramName

/-- What the program needs of its surroundings. -/
structure System (m : Type → Type) where
  print : String → m Unit
  /-- The bytes of the input up to the end of a line and with it, or up to the end of the input. -/
  readBytes : m (List UInt8)
  /-- The content of the file at a path. -/
  readFile : String → m (Except ReadError ByteArray)

section Program

variable {m : Type → Type} [Monad m]

/-- Statements of the loop over the lines. They share the buffer, and a failure ends the program. -/
abbrev LoopStatements (m : Type → Type) (α : Type) := ExceptT Failure (StateT String m) α

/-- Puts bytes into the buffer, after what is there. Only the new ones have to be UTF-8. -/
def appendBytes (bytes : List UInt8) : LoopStatements m Unit :=
  match textOfBytes bytes.toByteArray with
  | .error e => throw (.ofReport e.report)
  | .ok text => modify (· ++ text)

/-- Puts the buffer in lower case if the option asks for it. -/
def lowerBuffer (flags : Flags) : LoopStatements m Unit := do
  if flags.lowercase then modify String.toLower

/-- Answers the sentence in the buffer, and clears the buffer for the next line. -/
def answerBuffer (sys : System m) (g : Grammar) (flags : Flags) : LoopStatements m Unit := do
  lowerBuffer flags
  match answerSentence g flags (Text.trim (← get)) with
  | .error f => throw (.ofFault f)
  | .ok text =>
    sys.print text
    sys.print "\n"
    set ""

/-- One turn of the loop: reads a line and answers it. Gives whether the loop goes on. -/
def turn (sys : System m) (g : Grammar) (flags : Flags) : LoopStatements m Bool := do
  sys.print prompt
  appendBytes (← sys.readBytes)
  if (← get).isEmpty then return false
  answerBuffer sys g flags
  return true

/-- Reads and answers lines to the end of the input. -/
def serve (sys : System m) (g : Grammar) (flags : Flags) : LoopStatements m Unit :=
  repeatM (fun _ : Unit => do return if ← turn sys g flags then .inl () else .inr ()) ()

/-- The program, given its argument vector. -/
def program (sys : System m) (arguments : List String) : ExceptT Failure m Unit := do
  match Request.ofArguments arguments with
  | .error e => throw (.ofArgumentError (programName arguments) e)
  | .ok .help => sys.print (usage (programName arguments) ++ "\n")
  | .ok (.parse file flags) =>
    let content ← sys.readFile file
    match load file flags content with
    | .error f => throw f
    | .ok g => ExceptT.mk (StateT.run' (serve sys g flags).run "")

end Program

/-! ## Consoles -/

/-- The byte that ends a line. -/
def newline : UInt8 := 10

/-- The first line of an input, with its end, and the rest. -/
def cutLine (input : List UInt8) : List UInt8 × List UInt8 :=
  let line := input.takeWhile (· != newline)
  let rest := input.dropWhile (· != newline)
  (line ++ rest.take 1, rest.drop 1)

/-- An input that is read from its beginning, and what is printed meanwhile. -/
structure Console where
  input : List UInt8
  output : String
deriving Inhabited

/-- The system of a console, with what reading a file gives. -/
def Console.system (readFile : String → Except ReadError ByteArray) : System (StateM Console) where
  print text := modify fun c => { c with output := c.output ++ text }
  readBytes := modifyGet fun c => ((cutLine c.input).1, { c with input := (cutLine c.input).2 })
  readFile path := return readFile path

/-- What the program leaves that ended so on a console. -/
def Console.outcome (ending : Except Failure Unit) (c : Console) : Outcome :=
  match ending with
  | .ok () => ⟨0, c.output, ""⟩
  | .error f => f.after c.output

/-- What the program leaves, given its argument vector, what reading a file gives, and the input. -/
def run (arguments : List String) (readFile : String → Except ReadError ByteArray)
    (input : List UInt8) : Outcome :=
  let (ending, console) := (program (Console.system readFile) arguments).run.run ⟨input, ""⟩
  console.outcome ending

end ChartParsing.CommandLine
