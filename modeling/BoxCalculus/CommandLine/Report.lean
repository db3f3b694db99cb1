import BoxCalculus.Book.Checking
import BoxCalculus.Text.Pieces

/-!
# Reports

What the commands show: errors with the place in the source, and the results of checking
definitions.
-/

namespace BoxCalculus.CommandLine

/-- Why a command failed. -/
inductive CommandError where
  | malformed (e : SyntaxError)
  | other (message : String)
  /-- Something is missing in a term that has to be written. -/
  | gap

/-- The error with a wording, if it has one. -/
def CommandError.ofMessage? (message? : Option String) : CommandError :=
  match message? with
  | some message => .other message
  | none => .gap

/-- A text as it is shown: tabs are four blanks wide. -/
def shown (text : List Char) : List Char :=
  text.flatMap fun c => if c = '\t' then [' ', ' ', ' ', ' '] else [c]

/-- The lines of a text. -/
def linesOf (text : String) : List (List Char) :=
  Text.pieces '\n' text.toList

/-- Lines as a text. -/
def unlines (lines : List (List Char)) : String :=
  String.ofList (['\n'].intercalate lines)

/-- Leave out a line that is empty and the only one after the first. -/
def dropLoneLine : List (List Char) → List (List Char)
  | [header, []] => [header]
  | lines => lines

/-- The text of an error. A syntax error is shown with the lines around it. -/
def CommandError.rendered? : CommandError → Option String
  | malformed e => do
      let snippet ← e.snippet?
      let lines := linesOf snippet
      let lines := if lines.getLast? = some [] then lines.dropLast else lines
      pure (unlines ((e.message.toList :: lines).map shown))
  | other message => some (unlines ((dropLoneLine (linesOf message)).map shown))
  | gap => none

/-- The lines that show the result of checking a definition. There are none if a term in it cannot
be written. -/
def resultText? (name : String) : Except DefinitionError Term → Option String
  | .ok type => type.print?.map fun text => "ok   " ++ name ++ " : " ++ text ++ "\n"
  | .error e => do
      let text ← (CommandError.ofMessage? e.message?).rendered?
      let indented := (linesOf text).map fun line => "     ".toList ++ line
      pure ("FAIL " ++ name ++ "\n" ++ unlines indented ++ "\n")

end BoxCalculus.CommandLine
