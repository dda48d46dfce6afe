/-!
# Command line arguments

The arguments name one grammar file and may hold options in any order. They are read from the left;
an option that needs a value takes the next argument, whatever it is.
-/

namespace ChartParsing.CommandLine

/-- The options. -/
structure Flags where
  /-- The start symbol, if it is not that of the grammar. -/
  start : Option String
  /-- Whether charts are printed. -/
  chart : Bool
  /-- Whether the best tree is printed. -/
  tree : Bool
  /-- Whether sentences are put in lower case. -/
  lowercase : Bool
deriving DecidableEq, Repr

/-- What holds without options. -/
def Flags.default : Flags := ⟨none, false, true, false⟩

/-- What the arguments ask for. -/
inductive Request where
  /-- To print the usage text. -/
  | help
  /-- To parse sentences with the grammar in a file. -/
  | parse (file : String) (flags : Flags)
deriving DecidableEq, Repr

/-- Why arguments are refused. -/
inductive ArgumentError where
  /-- There is not even a program name. -/
  | noProgramName
  /-- There is nothing after the program name. -/
  | notEnough
  /-- The option for the start symbol is the last argument. -/
  | missingStart
  /-- An option is unknown, or there is a second file. -/
  | invalid
  /-- There is no file. -/
  | missingFile
deriving DecidableEq, Repr

/-- What an error says of itself. -/
def ArgumentError.message : ArgumentError → String
  | noProgramName => "bad argument vector"
  | notEnough => "not enough arguments"
  | missingStart => "missing start symbol"
  | invalid => "invalid arguments"
  | missingFile => "missing filename"

/-- What the program is called if nobody says so. -/
def defaultProgramName : String := "cyk"

/-- The lines of the usage text. -/
def usageLines (program : String) : List String :=
  ["Usage: " ++ program ++ " FILE [options]",
    "",
    "Reads sentences from stdin, one per line, and parses them with the grammar in FILE.",
    "",
    "Options:",
    "  -h, --help          Print this message",
    "  -c, --chart         Print the parse charts (defaults to not printing)",
    "  -t, --no-tree       Don't print the best tree (defaults to printing)",
    "  -s, --start SYMBOL  Use SYMBOL as the start symbol instead of the first rule's",
    "  -l, --lowercase     Lowercase sentences before tokenizing",
    "",
    "Set RUST_LOG (e.g. RUST_LOG=cykparse=debug) for logging."]

/-- The usage text. -/
def usage (program : String) : String :=
  "\n".intercalate (usageLines program)

/-- Reads the arguments after the program name, given the file and the options so far. -/
def readArguments (file : Option String) (flags : Flags) :
    List String → Except ArgumentError Request
  | [] =>
    match file with
    | some f => .ok (.parse f flags)
    | none => .error .missingFile
  | arg :: rest =>
    if arg = "-h" ∨ arg = "--help" then .ok .help
    else if arg = "-c" ∨ arg = "--chart" then readArguments file { flags with chart := true } rest
    else if arg = "-t" ∨ arg = "--no-tree" then readArguments file { flags with tree := false } rest
    else if arg = "-l" ∨ arg = "--lowercase" then
      readArguments file { flags with lowercase := true } rest
    else if arg = "-s" ∨ arg = "--start" then
      match rest with
      | symbol :: rest => readArguments file { flags with start := some symbol } rest
      | [] => .error .missingStart
    else if file.isNone && !arg.startsWith "-" then readArguments (some arg) flags rest
    else .error .invalid

/-- What an argument vector, program name included, asks for. -/
def Request.ofArguments : List String → Except ArgumentError Request
  | [] => .error .noProgramName
  | [_] => .error .notEnough
  | _ :: args => readArguments none .default args

end ChartParsing.CommandLine
