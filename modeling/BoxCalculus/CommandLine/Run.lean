import BoxCalculus.CommandLine.Session
import BoxCalculus.Rpc.Server
import BoxCalculus.Source.Formatting
import BoxCalculus.Term.Erasure

/-!
# Running commands

Each command writes to the output of its host and may fail. The command that serves requests leaves
the conversation to its caller.
-/

namespace BoxCalculus.CommandLine

/-- What is left to do after a command. -/
inductive Continuation where
  | done
  | serve (service : Rpc.Service) (book : Book)

variable {m : Type → Type} [Monad m] [Host m]

/-- Print a line with a term. -/
def printTerm (t : Term) : ExceptT CommandError m Unit := do
  match t.print? with
  | some text => Host.print (text ++ "\n")
  | none => throw .gap

/-- Check all definitions and show the results. -/
def runCheck (session : Session) : ExceptT CommandError m Unit := do
  if session.book.length = 0 then
    throw (.other "nothing to check: pass definition files or create formal.toml")
  match session.book.checkAll session.kernel false with
  | .error stop => throw (.ofMessage? stop.message?)
  | .ok results =>
      let some texts := results.mapM fun (name, result) => resultText? name result | throw .gap
      let failed := (results.filter fun (_, result) => !result.isOk).length
      Host.print (String.join texts)
      Host.print ("checked " ++ toString results.length ++ " definitions\n")
      if failed > 0 then
        throw (.other (toString failed ++ " of " ++ toString results.length ++
          " definitions failed"))

/-- The term of an argument. -/
def argumentTerm (session : Session) (source : String) : Except CommandError Term :=
  (parseTerm session.kernel.arith "<term>" source).mapError .malformed

/-- Show the normal form of a term. -/
def runNorm (session : Session) (source : String) : ExceptT CommandError m Unit := do
  let t ← argumentTerm session source
  match session.kernel.normalize false t with
  | (_, some failure) => throw (.ofMessage? failure.message?)
  | (nf, none) =>
      if session.erase then
        match nf.erase? session.kernel.arith with
        | some erased => printTerm erased
        | none => throw .gap
      else printTerm nf

/-- Show the type of a term. -/
def runType (session : Session) (source : String) : ExceptT CommandError m Unit := do
  let t ← argumentTerm session source
  match session.book.expand t with
  | .error failure => throw (.ofMessage? failure.message?)
  | .ok expanded =>
      match session.kernel.infer false expanded with
      | .error failure => throw (.ofMessage? failure.message?)
      | .ok type => printTerm type

/-- The files that paths stand for. A directory stands for the files with definitions in it. -/
def sourceFiles : List String → ExceptT CommandError m (List String)
  | [] => pure []
  | path :: rest => do
      match ← Host.isDirectory path with
      | .error fault =>
          throw (.other ("accessing " ++ path ++ ": stat " ++ path ++ ": " ++ fault.message))
      | .ok false => return path :: (← sourceFiles rest)
      | .ok true =>
          match ← matches? (Path.join [path, "*.fm"]) with
          | none => throw (.other "syntax error in pattern")
          | some files => return files ++ (← sourceFiles rest)

/-- Show files in canonical form, or write that form back, or list the files that are not in it. -/
def formatFiles (ar : Arith) (write list : Bool) : List String → ExceptT CommandError m Unit
  | [] => pure ()
  | file :: rest => do
      match ← Host.readFile file with
      | .error fault => throw (.other (fault.readMessage file))
      | .ok source =>
          match formatSource ar file source with
          | .error e => throw (.malformed e)
          | .ok none => throw .gap
          | .ok (some formatted) =>
              let changed := source ≠ formatted
              if write ∧ changed then Host.writeFile file formatted
              if list ∧ changed then Host.print (file ++ "\n")
              if !write ∧ !list then Host.print formatted
      formatFiles ar write list rest

/-- Run a command with its arguments. -/
def runCommand (ar : Arith) (command : Command) (arguments : Arguments) :
    ExceptT CommandError m Continuation := do
  match command, arguments.plain with
  | .check, files =>
      runCheck (← openSession ar arguments files)
      pure .done
  | .norm, source :: _ =>
      runNorm (← openSession ar arguments []) source
      pure .done
  | .type, source :: _ =>
      runType (← openSession ar arguments []) source
      pure .done
  | .fmt, paths =>
      let write := (arguments.switch? "write").getD false
      let list := (arguments.switch? "list").getD false
      formatFiles ar write list (← sourceFiles paths)
      pure .done
  | .serve, _ =>
      let session ← openSession ar arguments []
      pure (.serve { arith := ar, fuel := session.kernel.fuel } session.book)
  | _, _ => pure .done

/-- Run a command line. -/
def run (ar : Arith) (commandLine : List String) : ExceptT CommandError m Continuation := do
  let usage {α : Type} (result : Except String α) : ExceptT CommandError m α :=
    match result with
    | .ok value => pure value
    | .error message => throw (.other message)
  let (command?, rest) ← usage (findCommand commandLine)
  let arguments ← usage (Command.readArguments command? rest)
  match command? with
  | none => pure .done
  | some command =>
      if (arguments.switch? "help").getD false then pure .done
      else do
        usage (command.checkCount arguments.plain)
        runCommand ar command arguments

end BoxCalculus.CommandLine
