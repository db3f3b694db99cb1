import BoxCalculus.Source.Parser

/-!
# Reading in place

The readers of `Parser` take tokens off the front of a list and are told what is in scope. The readers
here move a cursor over a list that stays as it is, and keep one scope, to which a binder adds its
names before the part that they are bound in and from which it drops them after. A reader that looks
for a token where there is none halts for that.

Nothing in the readers bounds their loops and their recursion, so a reader may go on for ever. They are
run against a clock, which counts down with each call of a reader for a term or for a turn of a loop,
and a reader comes to an end if it does so whenever the clock is set high enough (`EndsWith`).
-/

namespace BoxCalculus

/-- Where a reader stands: the position of the next token, and the names in scope, the innermost last.
-/
structure Cursor where
  position : Nat
  scope : List String

/-- Why a reader gives up. -/
inductive Halt where
  | fault (fault : SyntaxFault)
  /-- There is no token at the position, or there are fewer names in scope than are to be dropped. -/
  | outside

/-- Readers that move a cursor. -/
abbrev InPlace (α : Type) := ExceptT Halt (StateT Cursor Option) α

namespace InPlace

/-- What a reader finds and where it leaves the cursor, if the clock has not run down. -/
def runFrom {α : Type} (reader : InPlace α) (cursor : Cursor) : Option (Except Halt α × Cursor) :=
  reader.run.run cursor

/-- The reader comes to this end if it has enough time. -/
def EndsWith {α : Type} (reader : (clock : Nat) → InPlace α) (cursor : Cursor)
    (outcome : Except Halt α × Cursor) : Prop :=
  ∃ enough, ∀ clock, enough ≤ clock → (reader clock).runFrom cursor = some outcome

/-- The clock has run down. -/
def timeout {α : Type} : InPlace α :=
  fun _ => none

/-- What a name means in a scope of which the first `count` names are still to be compared. -/
def resolve (scope : List String) (name : String) : (count : Nat) → Term
  | 0 => .ref name
  | i + 1 =>
      if scope[i]? = some name then .var (scope.length - 1 - i)
      else resolve scope name i

/-- Drop the innermost names. -/
def unbind (count : Nat) : InPlace Unit := do
  let cursor ← get
  if count ≤ cursor.scope.length then
    set { cursor with scope := cursor.scope.take (cursor.scope.length - count) }
  else throw .outside

variable (ar : Arith) (tokens : List Token)

/-- The next token. -/
def peek : InPlace Token := do
  let cursor ← get
  match tokens[cursor.position]? with
  | some token => pure token
  | none => throw .outside

/-- Move past the next token unless it is the last one. -/
def advance : InPlace Unit := do
  let _ ← peek tokens
  modify fun cursor =>
    if cursor.position < tokens.length - 1 then { cursor with position := cursor.position + 1 }
    else cursor

/-- Fail at the next token. -/
def failure {α : Type} (problem : Lexeme → SyntaxProblem) : InPlace α := do
  let token ← peek tokens
  throw (.fault ⟨token.pos, problem token.lexeme⟩)

/-- Does this lexeme come next? -/
def comes (lexeme : Lexeme) : InPlace Bool := do
  let token ← peek tokens
  pure (token.lexeme = lexeme)

/-- Pass over a lexeme that has to come next. -/
def expect (lexeme : Lexeme) (text : String) : InPlace Unit := do
  if ← comes tokens lexeme then advance tokens
  else failure tokens (.expected text)

/-- Pass over a symbol that has to come next. -/
def symbol (text : String) : InPlace Unit :=
  expect tokens (.symbol text) text

/-- Pass over a keyword that has to come next. -/
def keyword (text : String) : InPlace Unit :=
  expect tokens (.word text) text

/-- Read a name. -/
def name : InPlace String := do
  let token ← peek tokens
  match token.lexeme with
  | .word text =>
      if keywords.contains text then failure tokens .nameExpected
      else
        advance tokens
        pure text
  | _ => failure tokens .nameExpected

/-- Read an optional erasure mark. -/
def erasure : InPlace Bool := do
  if ← comes tokens (.symbol "-") then
    advance tokens
    pure true
  else pure false

/-- Pass over the semicolon after an entry of a block. The last entry needs none. -/
def separator : InPlace Unit := do
  if ← comes tokens (.symbol ";") then advance tokens
  else if ← comes tokens (.symbol "\x7d") then pure ()
  else failure tokens .separatorExpected

/-- Read a part with more names in scope, which are dropped again however that ends. -/
def under (inner : InPlace Term) (names : List String) : InPlace Term :=
  show StateT Cursor Option (Except Halt Term) from do
    modify fun cursor => { cursor with scope := cursor.scope ++ names }
    let result ← inner.run
    match ← (unbind names.length).run with
    | .ok () => pure result
    | .error halt => pure (.error halt)

section Forms

variable (inner : InPlace Term)

/-- Read a form that has one part. -/
def operator (form : Term → Term) : InPlace Term := do
  advance tokens
  let part ← inner
  pure (form part)

/-- Read the type of functions or of pairs. -/
def quantifier (close : String) (form : Bool → String → Term → Term → Term) : InPlace Term := do
  advance tokens
  let erased ← erasure tokens
  let self ← name tokens
  symbol tokens ":"
  let first ← inner
  symbol tokens close
  let second ← under inner [self]
  pure (form erased self first second)

/-- Read a function. -/
def lam : InPlace Term := do
  advance tokens
  let erased ← erasure tokens
  let self ← name tokens
  let dom ←
    if ← comes tokens (.symbol ":") then
      advance tokens
      inner
    else pure .hole
  symbol tokens "]"
  let body ← under inner [self]
  pure (.lam erased self dom body)

/-- Read a term in parentheses, with its arguments. -/
def app (arguments : Term → InPlace Term) : InPlace Term := do
  advance tokens
  let fn ← inner
  arguments fn

/-- Read a pair. -/
def pair : InPlace Term := do
  advance tokens
  let erased ← erasure tokens
  let type ← inner
  let fst ← inner
  let snd ← inner
  pure (.pair erased type fst snd)

/-- Read the elimination of a pair. -/
def split : InPlace Term := do
  advance tokens
  let erased ← erasure tokens
  let scrutinee ← inner
  keyword tokens "as"
  let self ← name tokens
  keyword tokens "return"
  let motive ← under inner [self]
  keyword tokens "with"
  let fstName ← name tokens
  let sndName ← name tokens
  symbol tokens "=>"
  let body ← under inner [fstName, sndName]
  pure (.split erased scrutinee self motive fstName sndName body)

/-- Read a declaration. -/
def data (constructors : String → InPlace Entries) : InPlace Term := do
  advance tokens
  let self ← name tokens
  symbol tokens ":"
  let type ← inner
  symbol tokens "\x7b"
  let ctrs ← constructors self
  pure (.data self type ctrs)

/-- Read a constructor. -/
def ctr : InPlace Term := do
  advance tokens
  let label ← name tokens
  let type ← inner
  pure (.ctr label type)

/-- Read a case analysis. -/
def caseOf (branches : InPlace Entries) : InPlace Term := do
  advance tokens
  let value ← inner
  keyword tokens "of"
  let type ← inner
  keyword tokens "as"
  let self ← name tokens
  keyword tokens "return"
  let motive ← under inner [self]
  symbol tokens "\x7b"
  let entries ← branches
  pure (.caseOf type value self motive entries)

/-- Read a form that binds a name to a value. -/
def binding (form : String → Term → Term → Term) : InPlace Term := do
  advance tokens
  let self ← name tokens
  symbol tokens "="
  let value ← inner
  keyword tokens "in"
  let body ← under inner [self]
  pure (form self value body)

/-- Read a definition. -/
def definition : InPlace Definition := do
  let token ← peek tokens
  let self ← name tokens
  let type? ←
    if ← comes tokens (.symbol ":") then
      advance tokens
      let type ← inner
      pure (some type)
    else pure none
  symbol tokens "="
  let body ← inner
  pure ⟨self, type?, body, token.pos⟩

end Forms

mutual

/-- Read a term. -/
def term : (clock : Nat) → InPlace Term
  | 0 => timeout
  | clock + 1 => do
      let token ← peek tokens
      match token.lexeme with
      | .eof => failure tokens .unexpected
      | .free digits =>
          advance tokens
          match readIndex? digits with
          | some k =>
              let cursor ← get
              pure (.var (ar.add k cursor.scope.length))
          | none => throw (.fault ⟨token.pos, .badFreeVariable digits⟩)
      | .word text =>
          match text with
          | "Type" =>
              advance tokens
              pure .univ
          | "Box" => operator tokens (term clock) .boxType
          | "box" => operator tokens (term clock) .box
          | "pair" => pair tokens (term clock)
          | "split" => split tokens (term clock)
          | "data" => data tokens (term clock) (constructors clock [])
          | "case" => caseOf tokens (term clock) (branches clock)
          | "dup" => binding tokens (term clock) .dup
          | "let" => binding tokens (term clock) fun _ value body => body.subst ar value 0
          | _ =>
              if keywords.contains text then failure tokens .unexpected
              else
                advance tokens
                let cursor ← get
                pure (resolve cursor.scope text cursor.scope.length)
      | .symbol text =>
          match text with
          | "\x7b" => quantifier tokens (term clock) "\x7d" .pi
          | "[" => lam tokens (term clock)
          | "(" => app tokens (term clock) (arguments clock)
          | "<" => quantifier tokens (term clock) ">" .sigma
          | "." => ctr tokens (term clock)
          | _ => failure tokens .unexpected

/-- Read the arguments of a function up to the closing parenthesis. -/
def arguments : (clock : Nat) → (fn : Term) → InPlace Term
  | 0, _ => timeout
  | clock + 1, fn => do
      if ← comes tokens (.symbol ")") then
        advance tokens
        pure fn
      else if ← comes tokens .eof then failure tokens (.expected ")")
      else
        let erased ← erasure tokens
        let arg ← term clock
        arguments clock (.app erased fn arg)

/-- Read the constructors of a declaration up to the closing brace. Those in `seen` were declared
before. -/
def constructors : (clock : Nat) → (seen : List String) → (self : String) → InPlace Entries
  | 0, _, _ => timeout
  | clock + 1, seen, self => do
      if ← comes tokens (.symbol "\x7d") then
        advance tokens
        pure .nil
      else
        let token ← peek tokens
        let label ← name tokens
        if seen.contains label then throw (.fault ⟨token.pos, .duplicateConstructor label⟩)
        else
          symbol tokens ":"
          let type ← under (term clock) [self]
          separator tokens
          let more ← constructors clock (label :: seen) self
          pure (.cons label type more)

/-- Read the branches of a case analysis up to the closing brace. -/
def branches : (clock : Nat) → InPlace Entries
  | 0 => timeout
  | clock + 1 => do
      if ← comes tokens (.symbol "\x7d") then
        advance tokens
        pure .nil
      else
        let label ← name tokens
        symbol tokens "=>"
        let body ← term clock
        separator tokens
        let more ← branches clock
        pure (.cons label body more)

end

/-- Read a term that the end of the source follows. -/
def closedTerm (clock : Nat) : InPlace Term := do
  let t ← term ar tokens clock
  if ← comes tokens .eof then pure t
  else failure tokens .unexpected

/-- Read definitions up to the end of the source. -/
def definitions : (clock : Nat) → InPlace (List Definition)
  | 0 => timeout
  | clock + 1 => do
      if ← comes tokens .eof then pure []
      else
        let first ← definition tokens (term ar tokens clock)
        let more ← definitions clock
        pure (first :: more)

variable {α β : Type}

section Runs

variable {reader : InPlace α} {next : α → InPlace β} {start middle : Cursor}

/-- A reader that reads nothing leaves the cursor where it is. -/
@[simp]
theorem runFrom_pure (a : α) (cursor : Cursor) :
    (pure a : InPlace α).runFrom cursor = some (.ok a, cursor) :=
  rfl

/-- After a result, the next reader goes on where the first has come to. -/
theorem runFrom_bind_ok {a : α} (run : reader.runFrom start = some (.ok a, middle)) :
    (reader >>= next).runFrom start = (next a).runFrom middle := by
  change ((reader.runFrom start).bind _) = _
  rw [run]
  rfl

/-- Where the first reader halts, the next one is not run. -/
theorem runFrom_bind_error {halt : Halt} (run : reader.runFrom start = some (.error halt, middle)) :
    (reader >>= next).runFrom start = some (.error halt, middle) := by
  change ((reader.runFrom start).bind _) = _
  rw [run]
  rfl

/-- A reader can look at the cursor without moving it. -/
@[simp]
theorem runFrom_get_bind (next : Cursor → InPlace β) (cursor : Cursor) :
    (get >>= next).runFrom cursor = (next cursor).runFrom cursor :=
  rfl

end Runs

/-- Where the first reader comes to an end, the second comes to the same end. -/
def Extends {α : Type} (first second : InPlace α) : Prop :=
  ∀ cursor outcome, first.runFrom cursor = some outcome → second.runFrom cursor = some outcome

namespace Extends

/-- A reader extends itself. -/
theorem refl (reader : InPlace α) : Extends reader reader :=
  fun _ _ run => run

/-- Every reader extends the one that has no time. -/
theorem timeout (reader : InPlace α) : Extends timeout reader :=
  fun _ _ run => nomatch run

/-- With more time for its two halves, a reader has more time. -/
theorem bind {first second : InPlace α} {next next' : α → InPlace β} (start : Extends first second)
    (rest : ∀ a, Extends (next a) (next' a)) : Extends (first >>= next) (second >>= next') := by
  intro cursor outcome run
  cases start' : first.runFrom cursor with
  | none =>
      change ((first.runFrom cursor).bind _) = _ at run
      rw [start'] at run
      cases run
  | some out =>
      obtain ⟨result, middle⟩ := out
      cases result with
      | ok a =>
          rw [runFrom_bind_ok start'] at run
          rw [runFrom_bind_ok (start _ _ start')]
          exact rest a _ _ run
      | error halt =>
          rw [runFrom_bind_error start'] at run
          rw [runFrom_bind_error (start _ _ start'), run]

/-- Two readers that start in the same way. -/
theorem after {reader : InPlace α} {next next' : α → InPlace β}
    (rest : ∀ a, Extends (next a) (next' a)) : Extends (reader >>= next) (reader >>= next') :=
  (refl reader).bind rest

/-- With more time for both of its branches, a choice has more time. -/
theorem ite {here : Bool} {yes yes' no no' : InPlace α} (present : Extends yes yes')
    (absent : Extends no no') : Extends (if here then yes else no) (if here then yes' else no') := by
  cases here with
  | true => exact present
  | false => exact absent

/-- With more time, a part is read below names as before. -/
theorem under {first second : InPlace Term} (start : Extends first second) (names : List String) :
    Extends (under first names) (under second names) := by
  intro cursor outcome run
  change (first.runFrom ⟨cursor.position, cursor.scope ++ names⟩).bind _ = _ at run
  change (second.runFrom ⟨cursor.position, cursor.scope ++ names⟩).bind _ = _
  cases start' : first.runFrom ⟨cursor.position, cursor.scope ++ names⟩ with
  | none =>
      rw [start'] at run
      cases run
  | some out =>
      rw [start'] at run
      rw [start _ _ start']
      exact run

end Extends

section Forms

variable {tokens : List Token} {first second : InPlace Term} (part : Extends first second)

include part

/-- More time for the operand is more time for the operator. -/
theorem extends_operator (form : Term → Term) :
    Extends (operator tokens first form) (operator tokens second form) :=
  .after fun _ => .bind part fun _ => .refl _

/-- More time for the two types is more time for the quantifier. -/
theorem extends_quantifier (close : String) (form : Bool → String → Term → Term → Term) :
    Extends (quantifier tokens first close form) (quantifier tokens second close form) :=
  .after fun _ => .after fun _ => .after fun _ => .after fun _ => .bind part fun _ =>
    .after fun _ => .bind (part.under _) fun _ => .refl _

/-- More time for the domain and the body is more time for the lambda. -/
theorem extends_lam : Extends (lam tokens first) (lam tokens second) :=
  .after fun _ => .after fun _ => .after fun _ => .after fun _ => .ite
    (.after fun _ => .bind part fun _ => .after fun _ => .bind (part.under _) fun _ => .refl _)
    (.after fun _ => .after fun _ => .bind (part.under _) fun _ => .refl _)

/-- More time for the function and the arguments is more time for the application. -/
theorem extends_app {arguments arguments' : Term → InPlace Term}
    (others : ∀ fn, Extends (arguments fn) (arguments' fn)) :
    Extends (app tokens first arguments) (app tokens second arguments') :=
  .after fun _ => .bind part others

/-- More time for the type and the components is more time for the pair. -/
theorem extends_pair : Extends (pair tokens first) (pair tokens second) :=
  .after fun _ => .after fun _ => .bind part fun _ => .bind part fun _ => .bind part fun _ => .refl _

/-- More time for the scrutinee, the motive and the body is more time for the split. -/
theorem extends_split : Extends (split tokens first) (split tokens second) :=
  .after fun _ => .after fun _ => .bind part fun _ => .after fun _ => .after fun _ =>
    .after fun _ => .bind (part.under _) fun _ => .after fun _ => .after fun _ => .after fun _ =>
    .after fun _ => .bind (part.under _) fun _ => .refl _

/-- More time for the type and the constructors is more time for the declaration. -/
theorem extends_data {constructors constructors' : String → InPlace Entries}
    (entries : ∀ self, Extends (constructors self) (constructors' self)) :
    Extends (data tokens first constructors) (data tokens second constructors') :=
  .after fun _ => .after fun _ => .after fun _ => .bind part fun _ => .after fun _ =>
    .bind (entries _) fun _ => .refl _

/-- More time for the declaration is more time for the constructor. -/
theorem extends_ctr : Extends (ctr tokens first) (ctr tokens second) :=
  .after fun _ => .after fun _ => .bind part fun _ => .refl _

/-- More time for the parts and the branches is more time for the case analysis. -/
theorem extends_caseOf {branches branches' : InPlace Entries} (entries : Extends branches branches') :
    Extends (caseOf tokens first branches) (caseOf tokens second branches') :=
  .after fun _ => .bind part fun _ => .after fun _ => .bind part fun _ => .after fun _ =>
    .after fun _ => .after fun _ => .bind (part.under _) fun _ => .after fun _ =>
    .bind entries fun _ => .refl _

/-- More time for the value and the body is more time for the binding. -/
theorem extends_binding (form : String → Term → Term → Term) :
    Extends (binding tokens first form) (binding tokens second form) :=
  .after fun _ => .after fun _ => .after fun _ => .bind part fun _ => .after fun _ =>
    .bind (part.under _) fun _ => .refl _

end Forms

/-- One more tick of the clock does not change an end that is reached. -/
structure Patient (ar : Arith) (tokens : List Token) (clock : Nat) : Prop where
  of_term : Extends (term ar tokens clock) (term ar tokens (clock + 1))
  of_arguments : ∀ fn, Extends (arguments ar tokens clock fn) (arguments ar tokens (clock + 1) fn)
  of_constructors : ∀ seen self, Extends (constructors ar tokens clock seen self)
    (constructors ar tokens (clock + 1) seen self)
  of_branches : Extends (branches ar tokens clock) (branches ar tokens (clock + 1))

/-- If the readers for the parts use more time only to go on, so does the reader of a term. -/
theorem Patient.term_succ {ar : Arith} {tokens : List Token} {clock : Nat}
    (patient : Patient ar tokens clock) :
    Extends (term ar tokens (clock + 1)) (term ar tokens (clock + 2)) := by
  have part := patient.of_term
  rw [term, term]
  refine .bind (.refl _) fun token => ?_
  split
  · exact .refl _
  · exact .refl _
  · split
    · exact .refl _
    · exact extends_operator part _
    · exact extends_operator part _
    · exact extends_pair part
    · exact extends_split part
    · exact extends_data part fun self => patient.of_constructors [] self
    · exact extends_caseOf part patient.of_branches
    · exact extends_binding part _
    · exact extends_binding part _
    · exact .refl _
  · split
    · exact extends_quantifier part _ _
    · exact extends_lam part
    · exact extends_app part patient.of_arguments
    · exact extends_quantifier part _ _
    · exact extends_ctr part
    · exact .refl _

/-- At any time on the clock, one more tick does not change a reading that has come to an end. -/
theorem patient (ar : Arith) (tokens : List Token) (clock : Nat) : Patient ar tokens clock := by
  induction clock with
  | zero => exact ⟨.timeout _, fun _ => .timeout _, fun _ _ => .timeout _, .timeout _⟩
  | succ clock ih =>
      refine ⟨ih.term_succ, fun fn => ?_, fun seen self => ?_, ?_⟩
      · rw [arguments, arguments]
        exact .after fun _ => .ite (.refl _) (.after fun _ => .ite (.refl _)
          (.after fun _ => .bind ih.of_term fun _ => ih.of_arguments _))
      · rw [constructors, constructors]
        exact .after fun _ => .ite (.refl _) (.after fun _ => .after fun _ => .ite (.refl _)
          (.after fun _ => .bind (ih.of_term.under _) fun _ => .after fun _ =>
            .bind (ih.of_constructors _ _) fun _ => .refl _))
      · rw [branches, branches]
        exact .after fun _ => .ite (.refl _) (.after fun _ => .after fun _ =>
          .bind ih.of_term fun _ => .after fun _ => .bind ih.of_branches fun _ => .refl _)

/-- A reader of terms that has come to an end comes to this end in any longer time. -/
theorem endsWith_term {ar : Arith} {tokens : List Token} {clock : Nat} {cursor : Cursor}
    {outcome : Except Halt Term × Cursor}
    (run : (term ar tokens clock).runFrom cursor = some outcome) :
    EndsWith (term ar tokens) cursor outcome := by
  refine ⟨clock, fun later le => ?_⟩
  induction le with
  | refl => exact run
  | @step later _ ih => exact (patient ar tokens later).of_term _ _ ih

end InPlace

/-- What a reader finds in a source text, if the clock has not run down. The end of the text is a token
of its own. -/
def readInPlace {α : Type} (reader : List Token → (clock : Nat) → InPlace α) (file source : String)
    (clock : Nat) : Option (Except Halt α) :=
  match tokenize file source with
  | .ok (tokens, stop) =>
      ((reader (tokens ++ [⟨.eof, stop⟩]) clock).runFrom ⟨0, []⟩).map Prod.fst
  | .error fault => some (.error (.fault fault))

end BoxCalculus
