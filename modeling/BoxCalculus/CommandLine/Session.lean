import BoxCalculus.Book.Loading
import BoxCalculus.CommandLine.Command
import BoxCalculus.CommandLine.Report
import BoxCalculus.Settings

/-!
# Sessions

A command works on a book and with a kernel. Both come from the flags of the command line and from
the settings of the project; flags that are given win over settings.
-/

namespace BoxCalculus.CommandLine

/-- What a command works with. -/
structure Session where
  book : Book
  kernel : Kernel
  erase : Bool

variable {m : Type → Type} [Monad m] [Host m]

/-- The settings of the project and the file they are in: the one that is given, or the nearest. -/
def findSettings (arguments : Arguments) :
    ExceptT CommandError m (Option (String × Settings)) := do
  let found ← match (arguments.texts "project").getLast?.getD "" with
    | "" => do
        let directory ← Host.workingDirectory
        Settings.find directory
    | path => do
        let loaded ← Settings.load path
        pure (loaded.map fun settings => some (path, settings))
  match found with
  | .ok settings? => pure settings?
  | .error e => throw (.other e.message)

/-- The error for a book that could not be loaded. The wording starts with a note, but not if the
source is malformed. -/
def loadFailure (note : String) : LoadError → CommandError
  | .source (.malformed e) => .malformed e
  | e => .other (note ++ e.message)

/-- Open a session. The book is loaded from files that are given, or else from those that the
settings include. -/
def openSession (ar : Arith) (arguments : Arguments) (files : List String) :
    ExceptT CommandError m Session := do
  let settings? ← findSettings arguments
  let settings := (settings?.map (·.2)).getD {}
  let files := arguments.texts "file" ++ files
  let (book, failure?) ←
    if !files.isEmpty then do
      let (book, error?) ← Book.empty.loadFiles ar files
      pure (book, error?.map (loadFailure ""))
    else match settings? with
      | none => pure (Book.empty, none)
      | some (path, settings) => do
          let (book, error?) ← Book.empty.loadIncluded ar (Path.directory path) settings.patterns
          pure (book, error?.map (loadFailure ("loading " ++ path ++ ": ")))
  if let some failure := failure? then throw failure
  let fuel := (arguments.number? "fuel").getD settings.fuel
  let erase := (arguments.switch? "erase").getD settings.erase
  pure { book, kernel := { arith := ar, env := book.lookup, fuel }, erase }

end BoxCalculus.CommandLine
