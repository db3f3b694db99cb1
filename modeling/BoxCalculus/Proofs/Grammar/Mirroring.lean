import BoxCalculus.Proofs.Grammar.Cursor

/-!
# Readers in place that mirror the parser

A reader in place mirrors a result of the parser if it does in its row of tokens what the parser did
with the tokens from the cursor on (`Mirrors`). Where the parser has passed over some tokens the cursor
is moved by as many, and where it has failed the reader fails. The scope is the one from before in both
cases. Mirroring readers are put together as the readers of the parser are, so each reader in place is
compared with its counterpart step by step.
-/

namespace BoxCalculus.InPlace

variable {α β : Type}

/-- The innermost of the names that are left to compare is the first one behind those that were. -/
theorem resolve_eq (scope : List String) (name : String) {count : Nat} (le : count ≤ scope.length) :
    resolve scope name count =
      match (scope.take count).reverse.idxOf? name with
      | some k => .var (scope.length - count + k)
      | none => .ref name := by
  induction count with
  | zero => rfl
  | succ i ih =>
      have inside : i < scope.length := le
      rw [resolve, ih (Nat.le_of_lt inside), List.take_succ_eq_append_getElem inside,
        List.reverse_append, List.reverse_singleton, List.singleton_append, List.idxOf?_cons,
        List.getElem?_eq_getElem inside]
      by_cases same : scope[i] = name
      · rw [if_pos (congrArg some same), if_pos (beq_iff_eq.2 same)]
        exact congrArg Term.var (by omega)
      · rw [if_neg (mt Option.some.inj same), if_neg (mt beq_iff_eq.1 same)]
        cases (scope.take i).reverse.idxOf? name with
        | none => rfl
        | some k => exact congrArg Term.var (by dsimp only; omega)

/-- A name means in the whole scope what it means to the parser. -/
theorem resolve_length (scope : List String) (name : String) :
    resolve scope name scope.length = Parser.resolve scope.reverse name := by
  rw [resolve_eq scope name (Nat.le_refl _), List.take_length, Parser.resolve]
  cases scope.reverse.idxOf? name <;> simp

/-- A row of tokens for a reader, and what stands behind them. -/
structure Row where
  ahead : List Token
  behind : List Token
  stop : Pos

namespace Row

variable (row : Row)

def tokens : List Token :=
  row.ahead ++ row.behind

/-- The end of the source stands behind the row. -/
def Ended : Prop :=
  row.behind = [⟨.eof, row.stop⟩]

/-- There is a token to look at, in the row or behind it. -/
def Clear (i : Nat) : Prop :=
  i < row.ahead.length ∨ row.Ended

/-- No token of the row is the end of a source. -/
def Plain : Prop :=
  ∀ token ∈ row.ahead, token.lexeme ≠ .eof

variable {row}

/-- If there is a token to look at, there is one at each position before. -/
theorem Clear.of_le {i j : Nat} (clear : row.Clear j) (le : i ≤ j) : row.Clear i :=
  clear.imp_left (Nat.lt_of_le_of_lt le)

variable {i : Nat} {scope : List String}

/-- The token at a position is the next one for the parser. -/
theorem getElem?_tokens (clear : row.Clear i) (le : i ≤ row.ahead.length) :
    row.tokens[i]? = some (Parser.next row.stop (row.ahead.drop i)) := by
  rcases Nat.lt_or_eq_of_le le with inside | rfl
  · rw [tokens, List.getElem?_append_left inside, List.drop_eq_getElem_cons inside,
      List.getElem?_eq_getElem inside]
    rfl
  · have ended := clear.resolve_left (Nat.lt_irrefl _)
    rw [tokens, List.getElem?_append_right le, List.drop_length, ended, Nat.sub_self]
    rfl

/-- Looking at a token gives the next one and moves nothing. -/
theorem runFrom_peek (clear : row.Clear i) (le : i ≤ row.ahead.length) :
    (peek row.tokens).runFrom ⟨i, scope⟩ =
      some (.ok (Parser.next row.stop (row.ahead.drop i)), ⟨i, scope⟩) := by
  rw [peek, runFrom_get_bind, getElem?_tokens clear le]
  rfl

/-- In the row, the cursor moves on by one token. -/
theorem runFrom_advance (inside : i < row.ahead.length) (clear : row.Clear (i + 1)) :
    (advance row.tokens).runFrom ⟨i, scope⟩ = some (.ok (), ⟨i + 1, scope⟩) := by
  rw [advance, runFrom_bind_ok (runFrom_peek (.inl inside) (Nat.le_of_lt inside))]
  have before : i < row.tokens.length - 1 := by
    rw [tokens, List.length_append]
    rcases clear with inside | ended
    · omega
    · rw [ended, List.length_singleton]
      omega
  change some (Except.ok (), ite _ _ _) = _
  rw [if_pos before]

/-- Asking for a lexeme compares it with that of the next token. -/
theorem runFrom_comes (lexeme : Lexeme) (clear : row.Clear i) (le : i ≤ row.ahead.length) :
    (comes row.tokens lexeme).runFrom ⟨i, scope⟩ =
      some (.ok (decide ((Parser.next row.stop (row.ahead.drop i)).lexeme = lexeme)), ⟨i, scope⟩) := by
  rw [comes, runFrom_bind_ok (runFrom_peek clear le)]
  rfl

/-- Asking for a symbol is asking whether the parser stands at it. -/
theorem runFrom_atSymbol (text : String) (clear : row.Clear i) (le : i ≤ row.ahead.length) :
    (comes row.tokens (.symbol text)).runFrom ⟨i, scope⟩ =
      some (.ok (Parser.atSymbol text (row.ahead.drop i)), ⟨i, scope⟩) := by
  rw [runFrom_comes (.symbol text) clear le]
  cases row.ahead.drop i with
  | nil => rfl
  | cons token rest => rfl

/-- A position with a token at it is in the row. -/
theorem lt_length_of_drop {token : Token} {rest : List Token}
    (here : row.ahead.drop i = token :: rest) : i < row.ahead.length := by
  have := congrArg List.length here
  simp only [List.length_drop, List.length_cons] at this
  omega

/-- One position on, the token has been passed. -/
theorem drop_succ_of_drop {token : Token} {rest : List Token}
    (here : row.ahead.drop i = token :: rest) : row.ahead.drop (i + 1) = rest := by
  rw [← List.tail_drop, here, List.tail_cons]

/-- A position with a symbol at it is in the row. -/
theorem lt_length_of_atSymbol {text : String}
    (here : Parser.atSymbol text (row.ahead.drop i) = true) : i < row.ahead.length := by
  cases more : row.ahead.drop i with
  | nil => simp [more, Parser.atSymbol] at here
  | cons token rest => exact lt_length_of_drop more

/-- A block ends at its brace. -/
theorem runFrom_brace {more : InPlace Entries}
    (here : Parser.atSymbol "\x7d" (row.ahead.drop i) = true) (clear : row.Clear (i + 1)) :
    (comes row.tokens (.symbol "\x7d") >>= fun last =>
      if last then advance row.tokens >>= fun _ => pure .nil else more).runFrom ⟨i, scope⟩ =
      some (.ok .nil, ⟨i + 1, scope⟩) := by
  have inside := lt_length_of_atSymbol here
  rw [runFrom_bind_ok (runFrom_atSymbol "\x7d" (.inl inside) (Nat.le_of_lt inside)), if_pos here,
    runFrom_bind_ok (runFrom_advance inside clear), runFrom_pure]

end Row

/-- Dropping as many names as have been added leaves the scope from before. -/
theorem runFrom_unbind (i : Nat) (scope names : List String) :
    (unbind names.length).runFrom ⟨i, scope ++ names⟩ = some (.ok (), ⟨i, scope⟩) := by
  rw [unbind, runFrom_get_bind]
  dsimp only
  rw [List.length_append, if_pos (Nat.le_add_left ..), Nat.add_sub_cancel, List.take_left]
  rfl

/-- A part that is read below names leaves the scope from before, whether it is read or not. -/
theorem runFrom_under {inner : InPlace Term} {i j : Nat} {scope names : List String}
    {result : Except Halt Term}
    (run : inner.runFrom ⟨i, scope ++ names⟩ = some (result, ⟨j, scope ++ names⟩)) :
    (under inner names).runFrom ⟨i, scope⟩ = some (result, ⟨j, scope⟩) := by
  change (inner.runFrom ⟨i, scope ++ names⟩).bind _ = _
  rw [run]
  change ((unbind names.length).runFrom ⟨j, scope ++ names⟩).bind _ = _
  rw [runFrom_unbind]
  rfl

/-- From a position of the row on, the reader does what the parser has done with the tokens from there.
It succeeds with the same result at the same place, which is not below `low`, or it fails if the parser
has failed, with the same fault if there is one end only. It has the scope that it had at first. -/
inductive Mirrors (row : Row) (low : Nat) (reader : InPlace α) (scope : List String) (i : Nat) :
    Except SyntaxFault (α × List Token) → Prop
  | found {a : α} {j : Nat} (low_le : low ≤ j) (le : j ≤ row.ahead.length)
      (run : row.Clear j → reader.runFrom ⟨i, scope⟩ = some (.ok a, ⟨j, scope⟩)) :
      Mirrors row low reader scope i (.ok (a, row.ahead.drop j))
  | failed {fault : SyntaxFault} (run : row.Ended → ∃ j ≤ row.ahead.length, ∃ found,
      reader.runFrom ⟨i, scope⟩ = some (.error (.fault found), ⟨j, scope⟩) ∧
      (row.Plain → found = fault)) :
      Mirrors row low reader scope i (.error fault)

namespace Mirrors

variable {row : Row} {low i i' : Nat} {reader reader' : InPlace α} {next : α → InPlace β}
  {scope : List String}

/-- A reader that runs on as another mirrors what the other mirrors. -/
theorem of_run {result : Except SyntaxFault (α × List Token)} {level : Nat} (le : level ≤ low)
    (run : row.Clear level → reader.runFrom ⟨i, scope⟩ = reader'.runFrom ⟨i', scope⟩)
    (mirrors : Mirrors row low reader' scope i' result) : Mirrors row low reader scope i result := by
  cases mirrors with
  | found low_le inside run' =>
      exact .found low_le inside fun clear =>
        (run (clear.of_le (Nat.le_trans le low_le))).trans (run' clear)
  | failed run' =>
      refine .failed fun ended => ?_
      rw [run (.inr ended)]
      exact run' ended

/-- What the parser has read, the reader reads, and it moves the cursor by as much. -/
theorem of_ok {result : Except SyntaxFault (α × List Token)} {a : α} {rest : List Token}
    (mirrors : Mirrors row low reader scope i result) (ok : result = .ok (a, rest)) :
    ∃ j, low ≤ j ∧ j ≤ row.ahead.length ∧ rest = row.ahead.drop j ∧
      (row.Clear j → reader.runFrom ⟨i, scope⟩ = some (.ok a, ⟨j, scope⟩)) := by
  cases mirrors with
  | found low_le le run =>
      cases ok
      exact ⟨_, low_le, le, rfl, run⟩
  | failed run => cases ok

/-- Where the parser has failed, the reader fails, with the same fault in a plain row. -/
theorem of_error {result : Except SyntaxFault (α × List Token)} {fault : SyntaxFault}
    (mirrors : Mirrors row low reader scope i result) (error : result = .error fault)
    (ended : row.Ended) :
    ∃ j ≤ row.ahead.length, ∃ found,
      reader.runFrom ⟨i, scope⟩ = some (.error (.fault found), ⟨j, scope⟩) ∧
      (row.Plain → found = fault) := by
  cases mirrors with
  | found low_le le run => cases error
  | failed run =>
      cases error
      exact run ended

/-- A first step that succeeds in any case. -/
theorem after {a : α} {result : Except SyntaxFault (β × List Token)} {level : Nat}
    (le : level ≤ low)
    (run : row.Clear level → reader.runFrom ⟨i, scope⟩ = some (.ok a, ⟨i', scope⟩))
    (mirrors : Mirrors row low (next a) scope i' result) :
    Mirrors row low (reader >>= next) scope i result :=
  mirrors.of_run le fun clear => runFrom_bind_ok (run clear)

/-- A reader that moves on far enough moves on less far, too. -/
theorem weaken {result : Except SyntaxFault (α × List Token)} {low' : Nat}
    (mirrors : Mirrors row low reader scope i result) (le : low' ≤ low) :
    Mirrors row low' reader scope i result := by
  cases mirrors with
  | found low_le inside run => exact .found (Nat.le_trans le low_le) inside run
  | failed run => exact .failed run

/-- A reader followed by another mirrors one step of the parser followed by another. -/
theorem bind {result : Except SyntaxFault (α × List Token)}
    {more : α × List Token → Except SyntaxFault (β × List Token)} {low' : Nat}
    (first : Mirrors row low reader scope i result) (le : low' ≤ low)
    (rest : ∀ a j, low ≤ j → j ≤ row.ahead.length →
      Mirrors row j (next a) scope j (more (a, row.ahead.drop j))) :
    Mirrors row low' (reader >>= next) scope i (result >>= more) := by
  cases first with
  | @found a j low_le inside run =>
      have later := rest a j low_le inside
      exact (later.after (Nat.le_refl j) run).weaken (Nat.le_trans le low_le)
  | failed run =>
      refine .failed fun ended => ?_
      obtain ⟨j, inside, found, failed, same⟩ := run ended
      exact ⟨j, inside, found, runFrom_bind_error failed, same⟩

/-- A reader that reads nothing mirrors a parser that does so. -/
theorem pure (le : i ≤ row.ahead.length) (a : α) :
    Mirrors row i (pure a) scope i (pure (a, row.ahead.drop i)) :=
  .found (Nat.le_refl i) le fun _ => rfl

/-- A reader that fails at the next token mirrors a parser that does so. -/
theorem failure (le : i ≤ row.ahead.length) (problem : Lexeme → SyntaxProblem) :
    Mirrors row low (failure row.tokens problem : InPlace α) scope i
      (Parser.failure row.stop (row.ahead.drop i) problem) :=
  .failed fun ended => ⟨i, le, _, runFrom_bind_ok (row.runFrom_peek (.inr ended) le), fun _ => rfl⟩

/-- A reader may look at the next token first. -/
theorem peek {next : Token → InPlace β} {result : Except SyntaxFault (β × List Token)}
    (le : i ≤ row.ahead.length) (low_le : i ≤ low)
    (rest : Mirrors row low (next (Parser.next row.stop (row.ahead.drop i))) scope i result) :
    Mirrors row low (peek row.tokens >>= next) scope i result :=
  rest.after low_le fun clear => row.runFrom_peek clear le

/-- A reader may pass over a token of the row first. -/
theorem advance {next : Unit → InPlace β} {result : Except SyntaxFault (β × List Token)}
    (inside : i < row.ahead.length)
    (rest : Mirrors row (i + 1) (next ()) scope (i + 1) result) :
    Mirrors row (i + 1) (advance row.tokens >>= next) scope i result :=
  rest.after (Nat.le_refl _) fun clear => row.runFrom_advance inside clear

/-- A reader may compare the next token with a lexeme first. -/
theorem comes {next : Bool → InPlace β} {result : Except SyntaxFault (β × List Token)}
    {lexeme : Lexeme} (le : i ≤ row.ahead.length) (low_le : i ≤ low)
    (rest : Mirrors row low
      (next (decide ((Parser.next row.stop (row.ahead.drop i)).lexeme = lexeme))) scope i result) :
    Mirrors row low (comes row.tokens lexeme >>= next) scope i result :=
  rest.after low_le fun clear => row.runFrom_comes lexeme clear le

/-- A reader may ask first whether it stands at a symbol. -/
theorem atSymbol {next : Bool → InPlace β} {result : Except SyntaxFault (β × List Token)}
    {text : String} (le : i ≤ row.ahead.length) (low_le : i ≤ low)
    (rest : Mirrors row low (next (Parser.atSymbol text (row.ahead.drop i))) scope i result) :
    Mirrors row low (InPlace.comes row.tokens (.symbol text) >>= next) scope i result :=
  rest.after low_le fun clear => row.runFrom_atSymbol text clear le

/-- A reader without a result may be followed by another. -/
theorem andThen {reader : InPlace Unit} {next : Unit → InPlace β}
    {result : Except SyntaxFault (List Token)}
    {more : List Token → Except SyntaxFault (β × List Token)} {low' : Nat}
    (first : Mirrors row low reader scope i (result.map (((), ·)))) (le : low' ≤ low)
    (rest : ∀ j, low ≤ j → j ≤ row.ahead.length →
      Mirrors row j (next ()) scope j (more (row.ahead.drop j))) :
    Mirrors row low' (reader >>= next) scope i (result >>= more) := by
  have both : Mirrors row low' (reader >>= next) scope i
      (result.map (((), ·)) >>= fun passed => more passed.2) := first.bind le fun _ => rest
  cases result <;> exact both

/-- A reader that expects a lexeme mirrors a step of the parser that passes over it. -/
theorem expect {lexeme : Lexeme} {text : String} {result : Except SyntaxFault (List Token)}
    (other : lexeme ≠ .eof) (le : i ≤ row.ahead.length)
    (pass : ∀ pos rest, row.ahead.drop i = ⟨lexeme, pos⟩ :: rest → result = .ok rest)
    (stuck : (Parser.next row.stop (row.ahead.drop i)).lexeme ≠ lexeme →
      result = Parser.failure row.stop (row.ahead.drop i) (.expected text)) :
    Mirrors row (i + 1) (InPlace.expect row.tokens lexeme text) scope i
      (result.map (((), ·))) := by
  refine comes le (Nat.le_succ i) ?_
  by_cases here : (Parser.next row.stop (row.ahead.drop i)).lexeme = lexeme
  · rw [decide_eq_true here]
    cases more : row.ahead.drop i with
    | nil =>
        rw [more] at here
        exact absurd here.symm other
    | cons token rest =>
        rw [more] at here
        have inside := row.lt_length_of_drop more
        rw [pass token.pos rest (here ▸ more), ← row.drop_succ_of_drop more]
        exact .found (Nat.le_refl _) inside fun clear => row.runFrom_advance inside clear
  · rw [decide_eq_false here, stuck here]
    exact failure le _

/-- Expecting a symbol mirrors the step of the parser. -/
theorem symbol (text : String) (le : i ≤ row.ahead.length) :
    Mirrors row (i + 1) (InPlace.symbol row.tokens text) scope i
      ((Parser.symbol row.stop text (row.ahead.drop i)).map (((), ·))) := by
  refine expect Lexeme.noConfusion le (fun pos rest here => ?_) fun differ => ?_
  · rw [here, Parser.symbol, if_pos rfl]
  · cases more : row.ahead.drop i with
    | nil => rfl
    | cons token rest =>
        rw [more] at differ
        exact if_neg differ

/-- Expecting a keyword mirrors the step of the parser. -/
theorem keyword (text : String) (le : i ≤ row.ahead.length) :
    Mirrors row (i + 1) (InPlace.keyword row.tokens text) scope i
      ((Parser.keyword row.stop text (row.ahead.drop i)).map (((), ·))) := by
  refine expect Lexeme.noConfusion le (fun pos rest here => ?_) fun differ => ?_
  · rw [here, Parser.keyword, if_pos rfl]
  · cases more : row.ahead.drop i with
    | nil => rfl
    | cons token rest =>
        rw [more] at differ
        exact if_neg differ

/-- Reading a name mirrors the step of the parser. -/
theorem name (le : i ≤ row.ahead.length) :
    Mirrors row (i + 1) (InPlace.name row.tokens) scope i
      (Parser.name row.stop (row.ahead.drop i)) := by
  refine peek le (Nat.le_succ i) ?_
  have stuck : Mirrors row (i + 1) (InPlace.failure row.tokens .nameExpected : InPlace String) scope
      i (Parser.failure row.stop (row.ahead.drop i) .nameExpected) := failure le .nameExpected
  cases more : row.ahead.drop i with
  | nil =>
      rw [more] at stuck
      exact stuck
  | cons token rest =>
      rw [more] at stuck
      obtain ⟨lexeme, pos⟩ := token
      cases lexeme with
      | word text =>
          rw [Parser.name]
          dsimp only [Parser.next]
          split
          · exact stuck
          · have inside := row.lt_length_of_drop more
            rw [← row.drop_succ_of_drop more]
            exact advance inside (pure inside text)
      | symbol text => exact stuck
      | free digits => exact stuck
      | eof => exact stuck

/-- Reading a mark of erasure mirrors the step of the parser. -/
theorem erasure {next : Bool → InPlace β} {result : Except SyntaxFault (β × List Token)}
    (le : i ≤ row.ahead.length)
    (rest : ∀ erased j, i ≤ j → j ≤ row.ahead.length →
      Parser.erasure (row.ahead.drop i) = (erased, row.ahead.drop j) →
      Mirrors row j (next erased) scope j result) :
    Mirrors row i (InPlace.erasure row.tokens >>= next) scope i result := by
  cases mark : Parser.atSymbol "-" (row.ahead.drop i) with
  | true =>
      have inside := row.lt_length_of_atSymbol mark
      have marked : Parser.erasure (row.ahead.drop i) = (true, row.ahead.drop (i + 1)) := by
        rw [Parser.erasure, mark, if_pos rfl, List.tail_drop]
      refine ((rest true (i + 1) (Nat.le_succ i) inside marked).after (Nat.le_refl _)
        fun clear => ?_).weaken (Nat.le_succ i)
      rw [InPlace.erasure, runFrom_bind_ok (row.runFrom_atSymbol "-" (clear.of_le (Nat.le_succ i)) le),
        mark]
      exact runFrom_bind_ok (row.runFrom_advance inside clear)
  | false =>
      have unmarked : Parser.erasure (row.ahead.drop i) = (false, row.ahead.drop i) := by
        rw [Parser.erasure, mark]
        rfl
      refine (rest false i (Nat.le_refl i) le unmarked).after (Nat.le_refl _) fun clear => ?_
      rw [InPlace.erasure, runFrom_bind_ok (row.runFrom_atSymbol "-" clear le), mark]
      rfl

/-- A part that is there if a symbol is. -/
theorem ite {text : String} {yes no : InPlace β} {result₁ result₂ : Except SyntaxFault (β × List Token)}
    (le : i ≤ row.ahead.length)
    (present : i < row.ahead.length → Mirrors row (i + 1) yes scope (i + 1) result₁)
    (absent : Mirrors row i no scope i result₂) :
    Mirrors row i
      (InPlace.comes row.tokens (.symbol text) >>= fun here =>
        if here then InPlace.advance row.tokens >>= fun _ => yes else no) scope i
      (if Parser.atSymbol text (row.ahead.drop i) then result₁ else result₂) := by
  refine atSymbol le (Nat.le_refl i) ?_
  split
  · rename_i here
    have inside := row.lt_length_of_atSymbol here
    exact (advance inside (present inside)).weaken (Nat.le_succ i)
  · exact absent

/-- A separator is passed over, or left out before the closing brace. -/
theorem separator {next : Unit → InPlace β} {result₁ result₂ : Except SyntaxFault (β × List Token)}
    (le : i ≤ row.ahead.length)
    (more : i < row.ahead.length → Mirrors row (i + 1) (next ()) scope (i + 1) result₁)
    (last : Parser.atSymbol "\x7d" (row.ahead.drop i) = true →
      Mirrors row i (next ()) scope i result₂) :
    Mirrors row i (InPlace.separator row.tokens >>= next) scope i
      (if Parser.atSymbol ";" (row.ahead.drop i) then result₁
      else if Parser.atSymbol "\x7d" (row.ahead.drop i) then result₂
      else Parser.failure row.stop (row.ahead.drop i) .separatorExpected) := by
  have semicolon (clear : row.Clear i) :
      (InPlace.comes row.tokens (.symbol ";")).runFrom ⟨i, scope⟩ = _ :=
    row.runFrom_atSymbol ";" clear le
  have brace (clear : row.Clear i) :
      (InPlace.comes row.tokens (.symbol "\x7d")).runFrom ⟨i, scope⟩ = _ :=
    row.runFrom_atSymbol "\x7d" clear le
  split
  · rename_i here
    have inside := row.lt_length_of_atSymbol here
    refine ((more inside).after (Nat.le_refl _) fun clear => ?_).weaken (Nat.le_succ i)
    rw [InPlace.separator, runFrom_bind_ok (semicolon (clear.of_le (Nat.le_succ i))), here]
    exact row.runFrom_advance inside clear
  · rename_i absent
    split
    · rename_i here
      refine (last here).after (Nat.le_refl i) fun clear => ?_
      rw [InPlace.separator, runFrom_bind_ok (semicolon clear), if_neg absent,
        runFrom_bind_ok (brace clear), here]
      rfl
    · rename_i neither
      refine .failed fun ended => ⟨i, le, _, ?_, fun _ => rfl⟩
      refine runFrom_bind_error ?_
      rw [InPlace.separator, runFrom_bind_ok (semicolon (.inr ended)), if_neg absent,
        runFrom_bind_ok (brace (.inr ended)), if_neg neither]
      exact runFrom_bind_ok (row.runFrom_peek (.inr ended) le)

/-- A part is read below names as the parser reads it with these in scope. -/
theorem under {inner : InPlace Term} {names : List String}
    {result : Except SyntaxFault (Term × List Token)}
    (mirrors : Mirrors row low inner (scope ++ names) i result) :
    Mirrors row low (InPlace.under inner names) scope i result := by
  cases mirrors with
  | found low_le inside run => exact .found low_le inside fun clear => runFrom_under (run clear)
  | failed run =>
      refine .failed fun ended => ?_
      obtain ⟨j, inside, found, failed, same⟩ := run ended
      exact ⟨j, inside, found, runFrom_under failed, same⟩

end Mirrors

end BoxCalculus.InPlace
