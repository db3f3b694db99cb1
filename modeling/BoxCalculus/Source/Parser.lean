import BoxCalculus.Source.Token
import BoxCalculus.Term.Variables

/-!
# Reading terms and definitions

Every form of term starts with a token of its own and ends where its last part ends, so terms need
no separators. A name that an enclosing binder binds is a variable, any other name is a reference.
`let` is read as the substitution it stands for.

A scope lists the names that are bound, the innermost first. `stop` is the place where the source
ends. The readers of recursive parts count down a number that twice the number of tokens bounds.
-/

namespace BoxCalculus

/-- A top-level entry `name : type = term` or `name = term`. -/
structure Definition where
  name : String
  type? : Option Term
  term : Term
  pos : Pos
  deriving Inhabited

/-- A problem in a source text, with the text. -/
structure SyntaxError where
  pos : Pos
  problem : SyntaxProblem
  source : String

namespace SyntaxError

/-- The wording with the place in front. -/
def message (e : SyntaxError) : String :=
  e.pos.text ++ ": " ++ e.problem.message

/-- The lines around the problem. -/
def snippet? (e : SyntaxError) : Option String :=
  BoxCalculus.snippet? e.source e.pos

end SyntaxError

/-- The value of a string of ASCII digits, if it is an index. -/
def readIndex? (digits : String) : Option Int :=
  if digits.toList.all Char.isDigit then
    let value : Int := digits.toList.foldl (fun n c => 10 * n + (c.toNat - 48 : Nat)) 0
    if value < 0x8000_0000_0000_0000 then some value else none
  else none

namespace Parser

/-- The next token. -/
def next (stop : Pos) : List Token → Token
  | [] => ⟨.eof, stop⟩
  | token :: _ => token

/-- Does this symbol come next? -/
def atSymbol (symbol : String) : List Token → Bool
  | token :: _ => token.lexeme = .symbol symbol
  | [] => false

/-- Fail at the next token. -/
def failure (stop : Pos) (tokens : List Token) (problem : Lexeme → SyntaxProblem) :
    Except SyntaxFault α :=
  let token := next stop tokens
  .error ⟨token.pos, problem token.lexeme⟩

/-- Pass over a symbol that has to come next. -/
def symbol (stop : Pos) (text : String) (tokens : List Token) : Except SyntaxFault (List Token) :=
  match tokens with
  | token :: rest =>
      if token.lexeme = .symbol text then .ok rest else failure stop tokens (.expected text)
  | [] => failure stop tokens (.expected text)

/-- Pass over a keyword that has to come next. -/
def keyword (stop : Pos) (text : String) (tokens : List Token) : Except SyntaxFault (List Token) :=
  match tokens with
  | token :: rest =>
      if token.lexeme = .word text then .ok rest else failure stop tokens (.expected text)
  | [] => failure stop tokens (.expected text)

/-- Read a name. -/
def name (stop : Pos) (tokens : List Token) : Except SyntaxFault (String × List Token) :=
  match tokens with
  | ⟨.word text, _⟩ :: rest =>
      if keywords.contains text then failure stop tokens .nameExpected else .ok (text, rest)
  | _ => failure stop tokens .nameExpected

/-- Read an optional erasure mark. -/
def erasure (tokens : List Token) : Bool × List Token :=
  if atSymbol "-" tokens then (true, tokens.tail) else (false, tokens)

/-- What a name means in a scope. -/
def resolve (scope : List String) (name : String) : Term :=
  match scope.idxOf? name with
  | some i => .var i
  | none => .ref name

mutual

/-- Read a term. -/
def term (ar : Arith) (stop : Pos) : Nat → (scope : List String) → List Token →
    Except SyntaxFault (Term × List Token)
  | 0, _, tokens => failure stop tokens .unexpected
  | fuel + 1, scope, tokens =>
      match tokens with
      | [] => failure stop tokens .unexpected
      | ⟨.eof, _⟩ :: _ => failure stop tokens .unexpected
      | ⟨.free digits, pos⟩ :: rest =>
          match readIndex? digits with
          | some k => .ok (.var (ar.add k scope.length), rest)
          | none => .error ⟨pos, .badFreeVariable digits⟩
      | ⟨.word text, _⟩ :: rest =>
          match text with
          | "Type" => .ok (.univ, rest)
          | "Box" => do
              let (type, rest) ← term ar stop fuel scope rest
              pure (.boxType type, rest)
          | "box" => do
              let (value, rest) ← term ar stop fuel scope rest
              pure (.box value, rest)
          | "pair" => do
              let (erased, rest) := erasure rest
              let (type, rest) ← term ar stop fuel scope rest
              let (fst, rest) ← term ar stop fuel scope rest
              let (snd, rest) ← term ar stop fuel scope rest
              pure (.pair erased type fst snd, rest)
          | "split" => do
              let (erased, rest) := erasure rest
              let (scrutinee, rest) ← term ar stop fuel scope rest
              let rest ← keyword stop "as" rest
              let (self, rest) ← name stop rest
              let rest ← keyword stop "return" rest
              let (motive, rest) ← term ar stop fuel (self :: scope) rest
              let rest ← keyword stop "with" rest
              let (fstName, rest) ← name stop rest
              let (sndName, rest) ← name stop rest
              let rest ← symbol stop "=>" rest
              let (body, rest) ← term ar stop fuel (sndName :: fstName :: scope) rest
              pure (.split erased scrutinee self motive fstName sndName body, rest)
          | "data" => do
              let (self, rest) ← name stop rest
              let rest ← symbol stop ":" rest
              let (type, rest) ← term ar stop fuel scope rest
              let rest ← symbol stop "\x7b" rest
              let (ctrs, rest) ← constructors ar stop fuel (self :: scope) [] rest
              pure (.data self type ctrs, rest)
          | "case" => do
              let (value, rest) ← term ar stop fuel scope rest
              let rest ← keyword stop "of" rest
              let (type, rest) ← term ar stop fuel scope rest
              let rest ← keyword stop "as" rest
              let (self, rest) ← name stop rest
              let rest ← keyword stop "return" rest
              let (motive, rest) ← term ar stop fuel (self :: scope) rest
              let rest ← symbol stop "\x7b" rest
              let (branches, rest) ← branches ar stop fuel scope rest
              pure (.caseOf type value self motive branches, rest)
          | "dup" => do
              let (self, rest) ← name stop rest
              let rest ← symbol stop "=" rest
              let (value, rest) ← term ar stop fuel scope rest
              let rest ← keyword stop "in" rest
              let (body, rest) ← term ar stop fuel (self :: scope) rest
              pure (.dup self value body, rest)
          | "let" => do
              let (self, rest) ← name stop rest
              let rest ← symbol stop "=" rest
              let (value, rest) ← term ar stop fuel scope rest
              let rest ← keyword stop "in" rest
              let (body, rest) ← term ar stop fuel (self :: scope) rest
              pure (body.subst ar value 0, rest)
          | _ =>
              if keywords.contains text then failure stop tokens .unexpected
              else .ok (resolve scope text, rest)
      | ⟨.symbol text, _⟩ :: rest =>
          match text with
          | "\x7b" => do
              let (erased, rest) := erasure rest
              let (self, rest) ← name stop rest
              let rest ← symbol stop ":" rest
              let (dom, rest) ← term ar stop fuel scope rest
              let rest ← symbol stop "\x7d" rest
              let (cod, rest) ← term ar stop fuel (self :: scope) rest
              pure (.pi erased self dom cod, rest)
          | "[" => do
              let (erased, rest) := erasure rest
              let (self, rest) ← name stop rest
              let (dom, rest) ←
                if atSymbol ":" rest then term ar stop fuel scope rest.tail
                else pure (.hole, rest)
              let rest ← symbol stop "]" rest
              let (body, rest) ← term ar stop fuel (self :: scope) rest
              pure (.lam erased self dom body, rest)
          | "(" => do
              let (fn, rest) ← term ar stop fuel scope rest
              arguments ar stop fuel scope fn rest
          | "<" => do
              let (erased, rest) := erasure rest
              let (self, rest) ← name stop rest
              let rest ← symbol stop ":" rest
              let (fst, rest) ← term ar stop fuel scope rest
              let rest ← symbol stop ">" rest
              let (snd, rest) ← term ar stop fuel (self :: scope) rest
              pure (.sigma erased self fst snd, rest)
          | "." => do
              let (ctr, rest) ← name stop rest
              let (type, rest) ← term ar stop fuel scope rest
              pure (.ctr ctr type, rest)
          | _ => failure stop tokens .unexpected

/-- Read the arguments of a function up to the closing parenthesis. -/
def arguments (ar : Arith) (stop : Pos) : Nat → (scope : List String) → (fn : Term) →
    List Token → Except SyntaxFault (Term × List Token)
  | 0, _, _, tokens => failure stop tokens .unexpected
  | fuel + 1, scope, fn, tokens =>
      if atSymbol ")" tokens then .ok (fn, tokens.tail)
      else if tokens.isEmpty then failure stop tokens (.expected ")")
      else do
        let (erased, rest) := erasure tokens
        let (arg, rest) ← term ar stop fuel scope rest
        arguments ar stop fuel scope (.app erased fn arg) rest

/-- Read the constructors of a declaration up to the closing brace. Those in `seen` were declared
before. -/
def constructors (ar : Arith) (stop : Pos) : Nat → (scope : List String) → (seen : List String) →
    List Token → Except SyntaxFault (Entries × List Token)
  | 0, _, _, tokens => failure stop tokens .unexpected
  | fuel + 1, scope, seen, tokens =>
      if atSymbol "\x7d" tokens then .ok (.nil, tokens.tail)
      else do
        let (label, rest) ← name stop tokens
        if seen.contains label then
          .error ⟨(next stop tokens).pos, .duplicateConstructor label⟩
        let rest ← symbol stop ":" rest
        let (type, rest) ← term ar stop fuel scope rest
        if atSymbol ";" rest then
          let (more, rest) ← constructors ar stop fuel scope (label :: seen) rest.tail
          pure (.cons label type more, rest)
        else if atSymbol "\x7d" rest then pure (.cons label type .nil, rest.tail)
        else failure stop rest .separatorExpected

/-- Read the branches of a case analysis up to the closing brace. -/
def branches (ar : Arith) (stop : Pos) : Nat → (scope : List String) → List Token →
    Except SyntaxFault (Entries × List Token)
  | 0, _, tokens => failure stop tokens .unexpected
  | fuel + 1, scope, tokens =>
      if atSymbol "\x7d" tokens then .ok (.nil, tokens.tail)
      else do
        let (label, rest) ← name stop tokens
        let rest ← symbol stop "=>" rest
        let (body, rest) ← term ar stop fuel scope rest
        if atSymbol ";" rest then
          let (more, rest) ← branches ar stop fuel scope rest.tail
          pure (.cons label body more, rest)
        else if atSymbol "\x7d" rest then pure (.cons label body .nil, rest.tail)
        else failure stop rest .separatorExpected

end

/-- A bound on how deep the readers of terms go in some tokens. -/
def depth (tokens : List Token) : Nat :=
  2 * tokens.length + 1

/-- Read a closed term. -/
def closedTerm (ar : Arith) (stop : Pos) (tokens : List Token) :
    Except SyntaxFault (Term × List Token) :=
  term ar stop (depth tokens) [] tokens

/-- Read a definition. -/
def definition (ar : Arith) (stop : Pos) (tokens : List Token) :
    Except SyntaxFault (Definition × List Token) := do
  let (self, rest) ← name stop tokens
  let (type?, rest) ←
    if atSymbol ":" rest then do
      let (type, rest) ← closedTerm ar stop rest.tail
      pure (some type, rest)
    else pure (none, rest)
  let rest ← symbol stop "=" rest
  let (body, rest) ← closedTerm ar stop rest
  pure (⟨self, type?, body, (next stop tokens).pos⟩, rest)

/-- Read definitions up to the end of the source. There are at most as many as there are tokens. -/
def definitions (ar : Arith) (stop : Pos) : Nat → List Token → Except SyntaxFault (List Definition)
  | 0, _ => .ok []
  | _ + 1, [] => .ok []
  | fuel + 1, tokens => do
      let (first, rest) ← definition ar stop tokens
      let more ← definitions ar stop fuel rest
      pure (first :: more)

end Parser

/-- The term written in a source text. -/
def parseTerm (ar : Arith) (file source : String) : Except SyntaxError Term :=
  Except.mapError (fun fault => ⟨fault.pos, fault.problem, source⟩) do
    let (tokens, stop) ← tokenize file source
    let (t, rest) ← Parser.closedTerm ar stop tokens
    if rest.isEmpty then pure t else Parser.failure stop rest .unexpected

/-- The definitions written in a source text. -/
def parseFile (ar : Arith) (file source : String) : Except SyntaxError (List Definition) :=
  Except.mapError (fun fault => ⟨fault.pos, fault.problem, source⟩) do
    let (tokens, stop) ← tokenize file source
    Parser.definitions ar stop tokens.length tokens

end BoxCalculus
