import BoxCalculus.Reduction.Rules
import BoxCalculus.Source.Parser

/-!
# Books

A book holds definitions in the order in which they were made. No name is defined twice, and a
definition is never changed or removed.
-/

namespace BoxCalculus

/-- A sequence of definitions. -/
structure Book where
  definitions : List Definition
  deriving Inhabited

/-- A name that is defined again, and where it was defined before. -/
structure Clash where
  name : String
  pos : Pos
  previous : Pos

/-- The wording of a clash. -/
def Clash.message (clash : Clash) : String :=
  clash.pos.text ++ ": " ++ Text.quoted clash.name ++ " is already defined at " ++
    clash.previous.text

/-- Why the definitions of a source text were not all added to a book. -/
inductive SourceError where
  | malformed (e : SyntaxError)
  | clashing (clash : Clash)

/-- The wording of the reason. -/
def SourceError.message : SourceError → String
  | malformed e => e.message
  | clashing clash => clash.message

namespace Book

/-- The book without definitions. -/
def empty : Book := ⟨[]⟩

/-- The number of definitions. -/
def length (book : Book) : Nat :=
  book.definitions.length

/-- The defined names in order. -/
def names (book : Book) : List String :=
  book.definitions.map Definition.name

/-- The definition of a name. -/
def find? (book : Book) (name : String) : Option Definition :=
  book.definitions.find? (·.name = name)

/-- The term of a name. -/
def lookup (book : Book) : Env := fun name =>
  (book.find? name).map Definition.term

/-- Add a definition, unless its name is taken. -/
def define (book : Book) (definition : Definition) : Except Clash Book :=
  match book.find? definition.name with
  | some previous => .error ⟨definition.name, definition.pos, previous.pos⟩
  | none => .ok ⟨book.definitions ++ [definition]⟩

/-- Add definitions in order, up to the first whose name is taken. -/
def defineAll (book : Book) : List Definition → Book × Option Clash
  | [] => (book, none)
  | definition :: rest =>
      match book.define definition with
      | .error clash => (book, some clash)
      | .ok book => book.defineAll rest

/-- Add the definitions of a source text. If it is malformed none of them is added. -/
def loadSource (ar : Arith) (book : Book) (file source : String) : Book × Option SourceError :=
  match parseFile ar file source with
  | .error e => (book, some (.malformed e))
  | .ok definitions =>
      let (book, clash?) := book.defineAll definitions
      (book, clash?.map .clashing)

end Book

end BoxCalculus
