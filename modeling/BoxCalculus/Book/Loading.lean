import BoxCalculus.Book.Basic
import BoxCalculus.Files.Host

/-!
# Loading books from files

Definitions are loaded from single files, or from all files that match some patterns. Such files are
loaded in the order of their paths, each once.
-/

namespace BoxCalculus

/-- Why a book could not be loaded. -/
inductive LoadError where
  | source (e : SourceError)
  | unreadable (path : String) (fault : FileFault)
  | badPattern (pattern : String)
  | noMatch (pattern : String)

/-- The wording of the reason. -/
def LoadError.message : LoadError → String
  | source e => e.message
  | unreadable path fault => "read " ++ path ++ ": " ++ fault.readMessage path
  | badPattern pattern => "include " ++ Text.quoted pattern ++ ": syntax error in pattern"
  | noMatch pattern => "include " ++ Text.quoted pattern ++ " matched no files"

namespace Book

variable {m : Type → Type} [Monad m] [Host m]

/-- Add the definitions of a file. -/
def loadFile (ar : Arith) (book : Book) (path : String) : m (Book × Option LoadError) := do
  match ← Host.readFile path with
  | .error fault => pure (book, some (.unreadable path fault))
  | .ok text =>
      let (book, error?) := book.loadSource ar path text
      pure (book, error?.map .source)

/-- Add the definitions of some files in order, up to the first that fails. -/
def loadFiles (ar : Arith) (book : Book) : List String → m (Book × Option LoadError)
  | [] => pure (book, none)
  | path :: rest => do
      match ← book.loadFile ar path with
      | (book, none) => book.loadFiles ar rest
      | failed => pure failed

/-- The paths that match patterns below a directory. -/
def includedPaths (directory : String) : List String → m (Except LoadError (List String))
  | [] => pure (.ok [])
  | pattern :: rest => do
      let pattern :=
        if Path.isAbsolute pattern then pattern else Path.join [directory, pattern]
      match ← matches? pattern with
      | none => pure (.error (.badPattern pattern))
      | some [] => pure (.error (.noMatch pattern))
      | some found =>
          let more ← includedPaths directory rest
          pure (more.map (found ++ ·))

/-- Add the definitions of all files that match patterns below a directory. If a pattern is malformed
or matches nothing no file is loaded. -/
def loadIncluded (ar : Arith) (book : Book) (directory : String) (patterns : List String) :
    m (Book × Option LoadError) := do
  match ← includedPaths directory patterns with
  | .error e => pure (book, some e)
  | .ok paths => book.loadFiles ar (paths.mergeSort fun a b => !(b < a)).eraseDups

end Book

end BoxCalculus
