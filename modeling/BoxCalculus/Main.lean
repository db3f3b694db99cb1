import BoxCalculus.CommandLine.Run
import BoxCalculus.Text.Utf8

/-!
# The program

The system that the program runs on is a host, on which command lines are run. A conversation is
held on the standard streams, a line at a time.
-/

namespace BoxCalculus

/-- The fault that an error of the system stands for. The system's number for a name that is too long
is 36. -/
def FileFault.ofError : IO.Error → FileFault
  | .inappropriateType .. => .notDirectory
  | .invalidArgument _ code _ => if code = 36 then .tooLong else .invalid
  | _ => .missing

/-- The system as a host. -/
instance : Host IO where
  workingDirectory := do
    return (← IO.currentDir).toString
  readFile path := do
    let file := (← IO.currentDir) / path
    if path ≠ "" ∧ (← file.isDir) then return .error .isDirectory
    try
      return .ok (Text.decode (← IO.FS.readBinFile path).toList)
    catch e =>
      return .error (.ofError e)
  isDirectory path := do
    let file := (← IO.currentDir) / path
    if path = "" then return .error .missing
    try
      let _ ← file.metadata
      return .ok (← file.isDir)
    catch e =>
      return .error (.ofError e)
  listDirectory path := do
    let file := (← IO.currentDir) / path
    if ← file.isDir then return (← file.readDir).toList.map (·.fileName)
    else return []
  writeFile path text := IO.FS.writeFile path text
  print text := IO.print text

/-- Answer the lines of a conversation until there are no more, and give the exit code. -/
partial def converse (service : Rpc.Service) (book : Book) (input output : IO.FS.Stream) :
    IO UInt32 := do
  let line ← input.getLine
  if line.isEmpty then return 0
  match service.answerLine? book (line.dropEndWhile (· == '\n')).toString with
  | none => return 2
  | some (book, response?) =>
      if let some response := response? then
        output.putStrLn response.text
        output.flush
      converse service book input output

/-- Run a command line and give the exit code. -/
def runProgram (args : List String) : IO UInt32 := do
  let command : ExceptT CommandLine.CommandError IO CommandLine.Continuation :=
    CommandLine.run Arith.word args
  match ← command.run with
  | .ok .done => return 0
  | .ok (.serve service book) =>
      converse service book (← IO.getStdin) (← IO.getStdout)
  | .error e =>
      IO.eprintln (e.rendered?.getD "a term cannot be written")
      return 1

end BoxCalculus

/-- Run the program. -/
def main (args : List String) : IO UInt32 :=
  BoxCalculus.runProgram args
