import BoxCalculus.CommandLine.Flag
import BoxCalculus.Text.Lower

/-!
# Commands

The first argument that is neither a flag nor the value of a flag names the command. A flag that is
not known is taken to have a value. One command has commands of its own, one for each shell, and the
next such argument names the shell.
-/

namespace BoxCalculus.CommandLine

/-- A shell that can complete the words of a command line. -/
inductive Shell where
  | bash
  | zsh
  | fish
  | powershell
  deriving DecidableEq

namespace Shell

/-- All shells. -/
def all : List Shell := [bash, zsh, fish, powershell]

/-- The name of a shell. -/
def name : Shell → String
  | bash => "bash"
  | zsh => "zsh"
  | fish => "fish"
  | powershell => "powershell"

/-- The shell with a name. -/
def named? (name : String) : Option Shell :=
  all.find? (·.name = name)

end Shell

/-- What is to be done. -/
inductive Command where
  | check
  | norm
  | type
  | fmt
  | serve
  /-- Show how the program is used. -/
  | help
  /-- Write a script for a shell, or show for which shells there is one. -/
  | completion (shell? : Option Shell)
  /-- Complete a command line, which is given by the arguments. This is for the scripts. -/
  | complete
  deriving DecidableEq

namespace Command

/-- The name of the program. -/
def program : String := "formal"

/-- The commands for users. -/
def all : List Command := [check, norm, type, fmt, serve, help, completion none]

/-- The name of a command. -/
def name : Command → String
  | check => "check"
  | norm => "norm"
  | type => "type"
  | fmt => "fmt"
  | serve => "serve"
  | help => "help"
  | completion _ => "completion"
  | complete => "__complete"

/-- The name of a command after the names of what it belongs to. -/
def path : Command → String
  | completion (some shell) => program ++ " " ++ (completion none).name ++ " " ++ shell.name
  | command => program ++ " " ++ command.name

/-- The command with a name. The command for scripts has a second one, by which they ask for less. -/
def named? (name : String) : Option Command :=
  if name = complete.name ∨ name = "__completeNoDesc" then some complete
  else all.find? (·.name = name)

/-- The flags of every command. -/
def commonFlags : List Flag :=
  [{ name := "debug", letter? := some 'd', kind := .switch },
    { name := "no-color", kind := .switch },
    { name := "fuel", kind := .number },
    { name := "jobs", letter? := some 'j', kind := .number },
    { name := "project", kind := .text },
    { name := "file", letter? := some 'f', kind := .text }]

/-- The flags of a command besides the common ones. -/
def ownFlags : Command → List Flag
  | norm => [{ name := "erase", letter? := some 'e', kind := .switch }]
  | fmt =>
      [{ name := "write", letter? := some 'w', kind := .switch },
        { name := "list", letter? := some 'l', kind := .switch }]
  | completion (some _) => [{ name := "no-descriptions", kind := .switch }]
  | _ => []

/-- All flags that may be given together with a command, or without one. -/
def flags (command? : Option Command) : List Flag :=
  commonFlags ++ (command?.map ownFlags).getD [] ++
    [{ name := "help", letter? := some 'h', kind := .switch }]

/-- Read the arguments of a command. A command line that is to be completed is taken as it is. -/
def readArguments (command? : Option Command) (arguments : List String) :
    Except String Arguments :=
  if command? = some complete then .ok { plain := arguments }
  else CommandLine.readArguments (flags command?) false arguments

/-- Check how many arguments a command is given. -/
def checkCount (command : Command) (arguments : List String) : Except String Unit :=
  match command, arguments with
  | norm, [_] | type, [_] => .ok ()
  | norm, _ | type, _ => .error ("accepts 1 arg(s), received " ++ toString arguments.length)
  | fmt, [] | complete, [] => .error "requires at least 1 arg(s), only received 0"
  | serve, extra :: _ | completion (some _), extra :: _ =>
      .error ("unknown command " ++ Text.quoted extra ++ " for " ++ Text.quoted command.path)
  | _, _ => .ok ()

end Command

/-! ## Finding the command -/

/-- Is the argument a flag whose value is the next argument? -/
def takesNext (argument : String) : Bool :=
  let flags := Command.commonFlags
  let needsValue (flag? : Option Flag) : Bool := (flag?.map Flag.needsValue).getD true
  !argument.toList.contains '=' &&
    match argument.toList with
    | '-' :: '-' :: name => needsValue (named? flags (String.ofList name))
    | ['-', letter] => letter.utf8Size == 1 && needsValue (lettered? flags letter)
    | _ => false

/-- Is the argument neither a flag nor empty? -/
def isPlain (argument : String) : Bool :=
  argument != "" && argument.toList.head? != some '-'

/-- The arguments that are neither flags nor values of flags. -/
def plainArguments : List String → List String
  | [] => []
  | argument :: rest =>
      if argument = "--" then []
      else if takesNext argument then
        match rest with
        | _ :: next :: rest => plainArguments (next :: rest)
        | _ => []
      else if isPlain argument then argument :: plainArguments rest
      else plainArguments rest

/-- Leave out the name of the command. -/
def withoutName (name : String) : List String → List String
  | [] => []
  | argument :: rest =>
      if argument = "--" then argument :: rest
      else if takesNext argument then
        match rest with
        | [] => [argument]
        | value :: rest => argument :: value :: withoutName name rest
      else if argument = name then rest
      else argument :: withoutName name rest

/-! ## Suggestions -/

/-- The next row of the table of edit distances, from the row before it. -/
def nextRow (c : UInt8) : (corner left : Nat) → List UInt8 → (above : List Nat) → List Nat
  | corner, left, d :: word, up :: above =>
      let distance := if c = d then corner else min (min left up) corner + 1
      distance :: nextRow c up distance word above
  | _, _, _, _ => []

/-- The least number of insertions, deletions and replacements that turn one word into the other. -/
def editDistance (a b : List UInt8) : Nat :=
  let first := List.range (b.length + 1)
  let last := a.foldl (fun row c =>
    match row with
    | [] => []
    | corner :: above => (corner + 1) :: nextRow c corner (corner + 1) b above) first
  last.getLast?.getD 0

/-- The commands whose names are close to a word or start with it. -/
def suggestions (word : String) : List String :=
  let lower := Text.lower word
  (Command.all.filter (· ≠ .help)).map Command.name |>.filter fun name =>
    editDistance lower.toUTF8.toList name.toUTF8.toList ≤ 2 ||
      lower.toList.isPrefixOf name.toList

/-- The wording for a word that is no command. -/
def unknownCommand (word : String) : String :=
  let close := suggestions word
  "unknown command " ++ Text.quoted word ++ " for " ++ Text.quoted Command.program ++
    if close.isEmpty then ""
    else "\n\nDid you mean this?\n" ++ String.join (close.map fun name => "\t" ++ name ++ "\n")

/-- The shell of a command line for scripts, if there is one, and the arguments without its name. -/
def findShell (arguments : List String) : Option Shell × List String :=
  match plainArguments arguments with
  | [] => (none, arguments)
  | word :: _ =>
      match Shell.named? word with
      | some shell => (some shell, withoutName word arguments)
      | none => (none, arguments)

/-- The command of a command line, if there is one, and the arguments without its name. -/
def findCommand (arguments : List String) : Except String (Option Command × List String) :=
  match plainArguments arguments with
  | [] => .ok (none, arguments)
  | word :: _ =>
      let rest := withoutName word arguments
      match Command.named? word with
      | some (.completion _) =>
          let (shell?, rest) := findShell rest
          .ok (some (.completion shell?), rest)
      | some command => .ok (some command, rest)
      | none => .error (unknownCommand word)

end BoxCalculus.CommandLine
