/-!
# Reading files

A working directory is a tree of files and directories. A path leads through it part by part; what
stands outside of it is not known and taken for empty. Reading fails as the operating system says.
-/

namespace ChartParsing

/-- An error of the operating system: its number, its kind and its text. -/
structure OsError where
  code : Nat
  kind : String
  text : String
deriving DecidableEq, Repr

namespace OsError

/-- Nothing has this name. -/
def notFound : OsError := ⟨2, "NotFound", "No such file or directory"⟩

/-- A path leads through a file. -/
def notDirectory : OsError := ⟨20, "NotADirectory", "Not a directory"⟩

/-- A directory has no content to read. -/
def isDirectory : OsError := ⟨21, "IsADirectory", "Is a directory"⟩

/-- A path or a part of it is too long. -/
def nameTooLong : OsError := ⟨36, "InvalidFilename", "File name too long"⟩

/-- The file may not be read. -/
def permissionDenied : OsError := ⟨13, "PermissionDenied", "Permission denied"⟩

/-- Symbolic links lead in a circle. -/
def linkLoop : OsError := ⟨40, "FilesystemLoop", "Too many levels of symbolic links"⟩

/-- The errors that reading a file can meet. -/
def known : List OsError :=
  [notFound, permissionDenied, notDirectory, isDirectory, nameTooLong, linkLoop]

/-- The error with a number; `text` stands for one that is not known. -/
def ofCode (code : Nat) (text : String) : OsError :=
  (known.find? fun e => e.code = code).getD ⟨code, "Uncategorized", text⟩

end OsError

/-- Why a text file cannot be read. -/
inductive ReadError where
  /-- The operating system refuses. -/
  | system (error : OsError)
  /-- The path contains a null character. -/
  | nullInPath
  /-- The content is not UTF-8. -/
  | notUtf8
deriving DecidableEq, Repr

/-- What an error says of itself. -/
def ReadError.message : ReadError → String
  | system e => e.text ++ " (os error " ++ toString e.code ++ ")"
  | nullInPath => "file name contained an unexpected NUL byte"
  | notUtf8 => "stream did not contain valid UTF-8"

/-- A file or a directory. -/
inductive FileTree where
  | file (content : ByteArray)
  | directory (entries : List (String × FileTree))

namespace FileTree

/-- The greatest length of a part of a path, in bytes. -/
def maxNameLength : Nat := 255

/-- The least length of a path that is too long, in bytes. -/
def pathLimit : Nat := 4096

/-- The parts of a path between its slashes. -/
def pathParts (path : String) : List String :=
  path.splitOn "/"

/-- Follows the parts of a path from a place. Above the place lie the directories `above`, the
nearest first. -/
def follow (above : List FileTree) : FileTree → List String → Except OsError FileTree
  | place, [] => .ok place
  | file _, _ :: _ => .error .notDirectory
  | directory entries, part :: parts =>
    if part = "" ∨ part = "." then follow above (directory entries) parts
    else if part = ".." then follow above.tail (above.headD (directory [])) parts
    else if maxNameLength < part.utf8ByteSize then .error .nameTooLong
    else
      match entries.lookup part with
      | some place => follow (directory entries :: above) place parts
      | none => .error .notFound

/-- The content of the file at a path that starts in the directory `root`. -/
def read (root : FileTree) (path : String) : Except ReadError ByteArray :=
  if path.contains '\x00' then .error .nullInPath
  else if path = "" then .error (.system .notFound)
  else if pathLimit ≤ path.utf8ByteSize then .error (.system .nameTooLong)
  else
    match follow [] (if path.startsWith "/" then directory [] else root) (pathParts path) with
    | .ok (file content) => .ok content
    | .ok (directory _) => .error (.system .isDirectory)
    | .error e => .error (.system e)

/-- Where a part of a path leads from a place in the tree, which the names on the way down to it
tell. Above the root lies what is not known. -/
def step (place : List String) (part : String) : Option (List String) :=
  if part = "" ∨ part = "." then some place
  else if part = ".." then if place = [] then none else some place.dropLast
  else some (place ++ [part])

/-- The entries with the one at a place changed, in new directories as needed. A file has nothing
below it to be changed. -/
def alter (change : Option FileTree → FileTree) (entries : List (String × FileTree)) :
    List String → List (String × FileTree)
  | [] => entries
  | [name] => (name, change (entries.lookup name)) :: entries.filter fun e => e.1 ≠ name
  | name :: place =>
    match entries.lookup name with
    | some (file _) => entries
    | some (directory inner) =>
      (name, directory (alter change inner place)) :: entries.filter fun e => e.1 ≠ name
    | none => (name, directory (alter change [] place)) :: entries

/-- Makes the directories that a path leads through from a place on; what is there stays. -/
def makeDirectories (entries : List (String × FileTree)) (place : List String) :
    List String → List (String × FileTree)
  | [] => entries
  | part :: parts =>
    match step place part with
    | none => entries
    | some next => makeDirectories (alter (·.getD (directory [])) entries next) next parts

/-- Makes the directory at a path. -/
def makeDirectory (entries : List (String × FileTree)) (path : String) :
    List (String × FileTree) :=
  makeDirectories entries [] (pathParts path)

/-- Writes a file, given with its path, after making the directories that lead to it. -/
def writeFile (entries : List (String × FileTree)) (f : String × ByteArray) :
    List (String × FileTree) :=
  match (pathParts f.1).foldlM step [] with
  | none => entries
  | some place =>
    alter (fun _ => file f.2) (makeDirectories entries [] (pathParts f.1).dropLast) place

/-- The directory with these directories and files made in it, each given with its path. -/
def ofList (directories : List String) (files : List (String × ByteArray)) : FileTree :=
  directory (files.foldl writeFile (directories.foldl makeDirectory []))

end FileTree

end ChartParsing
