import BoxCalculus.Name
import BoxCalculus.Source.Position
import BoxCalculus.Text.Blank
import BoxCalculus.Text.Quoted

/-!
# Tokens

Source text consists of words, free variables `#k`, symbols, blank space, and comments that run from
`//` to the end of the line. Words and the digits of free variables are as long as they can be.
-/

namespace BoxCalculus

/-- What a token says. Keywords are words; `eof` stands for the end of the source. -/
inductive Lexeme where
  | word (text : String)
  | free (digits : String)
  | symbol (text : String)
  | eof
  deriving DecidableEq, Inhabited

/-- How a message speaks of a token. -/
def Lexeme.described : Lexeme → String
  | word text | symbol text => Text.quoted text
  | free digits => "#" ++ digits
  | eof => "end of input"

/-- A token with the place where it starts. -/
structure Token where
  lexeme : Lexeme
  pos : Pos
  deriving DecidableEq, Inhabited

/-- What is wrong with a source text. -/
inductive SyntaxProblem where
  /-- A character that starts no token. -/
  | strayChar (c : Char)
  /-- A `#` without digits after it. -/
  | digitsExpected
  /-- A token that cannot stand here. -/
  | unexpected (found : Lexeme)
  /-- Another symbol or keyword than the one that has to stand here. -/
  | expected (text : String) (found : Lexeme)
  /-- Something else than a name where one has to stand. -/
  | nameExpected (found : Lexeme)
  /-- An entry of a block that is followed by neither a separator nor the end of the block. -/
  | separatorExpected (found : Lexeme)
  /-- A constructor that was declared before. -/
  | duplicateConstructor (name : String)
  /-- A free variable whose number cannot be read as an index. -/
  | badFreeVariable (digits : String)
  deriving DecidableEq, Inhabited

/-- The wording of a problem. -/
def SyntaxProblem.message : SyntaxProblem → String
  | strayChar c => "unexpected character " ++ Text.quotedChar c
  | digitsExpected => "expected digits after #"
  | unexpected found => "unexpected " ++ found.described
  | expected text found => "expected " ++ Text.quoted text ++ ", got " ++ found.described
  | nameExpected found => "expected a name, got " ++ found.described
  | separatorExpected found => "expected \";\" or \"\x7d\", got " ++ found.described
  | duplicateConstructor name => "duplicate constructor " ++ Text.quoted name
  | badFreeVariable digits => "bad free variable #" ++ digits

/-- A problem and where it is. -/
structure SyntaxFault where
  pos : Pos
  problem : SyntaxProblem
  deriving DecidableEq, Inhabited

/-- The characters that are symbols on their own. -/
def symbolChars : List Char :=
  ['\x7b', '\x7d', '[', ']', '(', ')', '<', '>', ':', ';', '=', '.', '-']

/-- The lexeme that starts with `c` and goes on in `rest`, and the number of its characters after
the first. -/
def lexemeAt (c : Char) (rest : List Char) : Except SyntaxProblem (Lexeme × Nat) :=
  if isNameStart c then
    let more := rest.takeWhile isNamePart
    .ok (.word (String.ofList (c :: more)), more.length)
  else if c = '#' then
    let digits := rest.takeWhile Text.isDigit
    if digits.isEmpty then .error .digitsExpected
    else .ok (.free (String.ofList digits), digits.length)
  else if c = '=' ∧ rest.head? = some '>' then .ok (.symbol "=>", 1)
  else if c ∈ symbolChars then .ok (.symbol c.toString, 0)
  else .error (.strayChar c)

/-- The tokens from a place on, and the place where the source ends. `pass` characters belong to a
token that has been read already, and `comment` says that the place is in a comment. -/
def tokensFrom : (pass : Nat) → (comment : Bool) → List Char → Pos →
    Except SyntaxFault (List Token × Pos)
  | _, _, [], pos => .ok ([], pos)
  | pass + 1, comment, c :: rest, pos => tokensFrom pass comment rest (pos.advance c)
  | 0, true, c :: rest, pos => tokensFrom 0 (c != '\n') rest (pos.advance c)
  | 0, false, c :: rest, pos =>
      if Text.isBlank c then tokensFrom 0 false rest (pos.advance c)
      else if c = '/' ∧ rest.head? = some '/' then tokensFrom 0 true rest (pos.advance c)
      else match lexemeAt c rest with
        | .error problem => .error ⟨pos, problem⟩
        | .ok (lexeme, more) => do
            let (tokens, stop) ← tokensFrom more false rest (pos.advance c)
            pure (⟨lexeme, pos⟩ :: tokens, stop)

/-- The tokens of a source text, and the place where it ends. -/
def tokenize (file source : String) : Except SyntaxFault (List Token × Pos) :=
  tokensFrom 0 false source.toList (Pos.start file)

end BoxCalculus
