import BoxCalculus.Index
import BoxCalculus.Text.Pieces

/-!
# Positions in source text

Lines and columns count from one, columns in characters. A snippet shows up to three lines of the
source, the last of which is the line of the position, with a caret below its column.
-/

namespace BoxCalculus

/-- A place in a source text. The file may have no name. -/
structure Pos where
  file : String
  line : Int
  column : Int
  deriving DecidableEq, Inhabited

namespace Pos

/-- The first place in a file. -/
def start (file : String) : Pos :=
  ⟨file, 1, 1⟩

/-- The place after a character. -/
def advance (pos : Pos) (c : Char) : Pos :=
  if c = '\n' then ⟨pos.file, pos.line + 1, 1⟩ else ⟨pos.file, pos.line, pos.column + 1⟩

/-- The written form: `file:line:column`, or `line:column` without a file. -/
def text (pos : Pos) : String :=
  (if pos.file = "" then "" else pos.file ++ ":") ++
    toString pos.line ++ ":" ++ toString pos.column

end Pos

/-- A text filled up with blanks on the left to a width of three. -/
def padded (s : String) : String :=
  String.ofList (List.replicate (3 - s.length) ' ') ++ s

/-- The number of blanks before the caret of a snippet: a blank, three columns for the number of the
line, a bar between blanks, and the columns before the one that is pointed at. The sum is a machine
word. -/
def caretOffset (column : Int) : Int :=
  Arith.word.add column 6

/-- The longest run of blanks that can be written. -/
def blankLimit : Int := 0x1_0000_0000_0000

/-- The lines around a position with a caret below its column. A position on no line of the source
has an empty snippet; there is none if the caret cannot be placed. -/
def snippet? (source : String) (pos : Pos) : Option String :=
  let lines := Text.pieces '\n' source.toList
  let offset := caretOffset pos.column
  if pos.line < 1 ∨ lines.length < pos.line then some ""
  else if offset < 0 ∨ blankLimit < offset then none
  else
    let line := pos.line.toNat
    let first := max 1 (line - 2)
    let shown := ((lines.take line).drop (first - 1)).zipIdx first
    some ("     |\n" ++
      String.join (shown.map fun (content, number) =>
        " " ++ padded (toString number) ++ " | " ++ String.ofList content ++ "\n") ++
      String.ofList (List.replicate offset.toNat ' ') ++ "^\n")

end BoxCalculus
