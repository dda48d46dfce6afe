import ChartParsing.FileTree
import ChartParsing.Grammar.Source

/-!
# Grammars from files
-/

namespace ChartParsing

/-- Why a file gives no grammar. -/
inductive LoadError where
  /-- The file cannot be read. -/
  | unreadable (path : String) (error : ReadError)
  /-- Its text gives no grammar. -/
  | source (error : SourceError)

/-- What an error says of itself. -/
def LoadError.message : LoadError → String
  | unreadable path e => "couldn't read grammar from " ++ path ++ ": " ++ e.message
  | source e => e.message

/-- The text of UTF-8 bytes. -/
def textOfBytes (bytes : ByteArray) : Except ReadError String :=
  match String.fromUTF8? bytes with
  | some text => .ok text
  | none => .error .notUtf8

/-- The grammar in the file at `path`, of which `content` was read. -/
def Grammar.ofFile (path : String) (content : Except ReadError ByteArray) :
    Except LoadError Grammar := do
  let text ← (content.bind textOfBytes).mapError (LoadError.unreadable path)
  (Grammar.ofText text).mapError LoadError.source

end ChartParsing
