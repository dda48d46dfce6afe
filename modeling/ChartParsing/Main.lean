import ChartParsing.CommandLine.Run

/-!
# The command line

The outer layer: the program on standard input and output.
-/

namespace ChartParsing.CommandLine

/-- The number that the operating system gave to an error. -/
def errorNumber : IO.Error → Option UInt32
  | .alreadyExists _ n _ | .otherError n _ | .resourceBusy n _ | .resourceVanished n _
  | .unsupportedOperation n _ | .hardwareFault n _ | .unsatisfiedConstraints n _
  | .illegalOperation n _ | .protocolError n _ | .timeExpired n _ | .interrupted _ n _
  | .noFileOrDirectory _ n _ | .invalidArgument _ n _ | .permissionDenied _ n _
  | .resourceExhausted _ n _ | .inappropriateType _ n _ | .noSuchThing _ n _ => some n
  | .unexpectedEof | .userError _ => none

/-- What an error in reading a file is to the program. Some calls give the number negated. -/
def readErrorOf (e : IO.Error) : ReadError :=
  let code := ((errorNumber e).getD 0).toInt32.toInt.natAbs
  .system (OsError.ofCode code (toString e))

/-- The content of a file. -/
def readContent (path : String) : IO (Except ReadError ByteArray) := do
  try
    return .ok (← IO.FS.readBinFile path)
  catch e =>
    return .error (readErrorOf e)

/-- The bytes of the next line of a stream, with its end. -/
partial def readBytesOfLine (stream : IO.FS.Stream) (line : Array UInt8) : IO (Array UInt8) := do
  let bytes ← stream.read 1
  match bytes.toList with
  | [] => return line
  | b :: _ => if b = newline then return line.push b else readBytesOfLine stream (line.push b)

/-- Standard input and output, and the files. -/
def standardSystem (input output : IO.FS.Stream) : System IO where
  print text := do
    output.putStr text
    output.flush
  readBytes := return (← readBytesOfLine input #[]).toList
  readFile := readContent

end ChartParsing.CommandLine

open ChartParsing ChartParsing.CommandLine

/-- Parses the sentences on standard input with the grammar in a file. -/
def main (args : List String) : IO UInt32 := do
  let sys := standardSystem (← IO.getStdin) (← IO.getStdout)
  match ← (program sys (defaultProgramName :: args)).run with
  | .ok () => return 0
  | .error f =>
    (← IO.getStderr).putStr f.errors
    return f.code.toUInt32
