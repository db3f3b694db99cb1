import BoxCalculus.Proofs.Grammar.Foreseeing
import BoxCalculus.Proofs.Grammar.Parsing

/-!
# Where a syntax error points

A syntax error points at the first token that is out of place (`syntax_error_first_offence`): there is
a source text with the same tokens up to there that can be read, but none in which this token comes
next.

The readers of terms are predictive, and so is the one of definitions. What they need to go on is a
list of lexemes. It can be written behind the tokens that are there, one lexeme a line, and does not
touch them (`exists_completion`).
-/

namespace BoxCalculus

/-! ## Going on behind some tokens of a source -/

/-- Whether a lexeme ends depends on the next character alone. -/
theorem Lexeme.Ends.of_head? {lexeme : Lexeme} {after after' : List Char}
    (ends : lexeme.Ends after) (same : after'.head? = after.head?) : lexeme.Ends after' := by
  cases lexeme with
  | word | free | symbol => rwa [Lexeme.Ends, same]
  | eof => trivial

/-- All lexemes end at the end of a line. -/
theorem Lexeme.ends_of_newline (lexeme : Lexeme) {after : List Char}
    (newline : ∀ c ∈ after.head?, c = '\n') : lexeme.Ends after := by
  cases lexeme with
  | word => exact fun c first => newline c first ▸ by decide
  | free => exact fun c first => newline c first ▸ by decide
  | symbol => exact fun _ first => absurd (newline '>' first) (by decide)
  | eof => trivial

/-- Whether characters are a gap depends on the next character alone. -/
theorem Gap.of_head? {after after' gap : List Char} (is_gap : Gap after gap)
    (same : after'.head? = after.head?) : Gap after' gap := by
  induction is_gap with
  | nil => exact .nil
  | blank blank _ ih => exact .blank blank ih
  | comment inside ends _ ih =>
      refine .comment inside ?_ ih
      rwa [List.head?_append, same, ← List.head?_append]

/-- Lexemes that are written one a line. -/
def spelledOut (xs : List Lexeme) : List Char :=
  xs.flatMap fun x => '\n' :: x.chars

/-- Lexemes that are spelled out start on a new line. -/
theorem newline_spelledOut (xs : List Lexeme) : ∀ c ∈ (spelledOut xs).head?, c = '\n' := by
  cases xs with
  | nil => simp [spelledOut]
  | cons x xs => simp [spelledOut, eq_comm]

/-- Lexemes that are spelled out are laid out as these. -/
theorem layout_spelledOut (file : String) {xs : List Lexeme} (writable : ∀ x ∈ xs, x.writable = true)
    (before : List Char) :
    ∃ tokens, tokens.map Token.lexeme = xs ∧ Layout file before (spelledOut xs) tokens [] := by
  induction xs generalizing before with
  | nil => exact ⟨[], rfl, .last .nil⟩
  | cons x xs ih =>
      rw [List.forall_mem_cons] at writable
      obtain ⟨tokens, same, layout⟩ := ih writable.2 (before ++ ['\n'] ++ x.chars)
      refine ⟨⟨x, Pos.behind file (before ++ ['\n'])⟩ :: tokens, congrArg (x :: ·) same, ?_⟩
      show Layout file before (['\n'] ++ (x.chars ++ spelledOut xs)) _ []
      exact .token (.blank (by decide) .nil) writable.1
        (x.ends_of_newline (newline_spelledOut xs)) layout

/-- Behind some of the tokens of a layout, other lexemes can be written than those that are there. -/
theorem Layout.exists_cut {file : String} {place chars after : List Char} {front rest : List Token}
    (layout : Layout file place chars (front ++ rest) after) {xs : List Lexeme}
    (writable : ∀ x ∈ xs, x.writable = true) : ∃ chars' tokens, tokens.map Token.lexeme = xs ∧
      Layout file place chars' (front ++ tokens) [] ∧
      ∀ lexeme : Lexeme, lexeme.Ends chars → lexeme.Ends chars' := by
  induction front generalizing place chars with
  | nil =>
      obtain ⟨tokens, same, new⟩ := layout_spelledOut file writable place
      exact ⟨_, tokens, same, new, fun lexeme _ => lexeme.ends_of_newline (newline_spelledOut xs)⟩
  | cons token front ih =>
      rw [List.cons_append] at layout
      cases layout with
      | @token _ gap lexeme chars _ _ is_gap known ends others =>
          obtain ⟨chars', tokens, same, new, keeps⟩ := ih others
          obtain ⟨c, more, spelled, -⟩ := Lexeme.exists_first known
          have head : (lexeme.chars ++ chars').head? = (lexeme.chars ++ chars).head? := by
            rw [spelled]
            rfl
          refine ⟨_, tokens, same, .token (is_gap.of_head? head) known (keeps _ ends) new, ?_⟩
          refine fun other ends => ends.of_head? ?_
          rw [List.head?_append, head, ← List.head?_append]

/-- Behind some of the tokens of a source, other lexemes can be written. -/
theorem exists_completion {file source : String} {front rest : List Token} {stop : Pos}
    (lexed : tokenize file source = .ok (front ++ rest, stop)) {xs : List Lexeme}
    (writable : ∀ x ∈ xs, x.writable = true) : ∃ source' tokens stop',
      tokens.map Token.lexeme = xs ∧ tokenize file source' = .ok (front ++ tokens, stop') := by
  obtain ⟨chars, tokens, same, layout, -⟩ := (layout_of_tokenize lexed).1.exists_cut writable
  rw [← String.toList_ofList (l := chars)] at layout
  exact ⟨String.ofList chars, tokens, _, same, layout.tokenize_eq⟩

/-! ## The first token that is out of place -/

/-- For a property of lists of lexemes, the position is that of the first token that is out of place:
some lexemes that can be written do in place of it and all behind it, but none do behind it. -/
def OutOfPlace (accepted : List Lexeme → Prop) (stop : Pos) (tokens : List Token) (pos : Pos) :
    Prop :=
  ∃ xs rest, Ahead xs tokens rest ∧ pos = (Parser.next stop rest).pos ∧
    (∃ more, (∀ x ∈ more, x.writable = true) ∧ accepted (xs ++ more)) ∧
    ∀ token ∈ rest.head?, ∀ more, ¬ accepted (xs ++ token.lexeme :: more)

/-- Lexemes as tokens that stand anywhere. -/
def tokensOf (xs : List Lexeme) : List Token :=
  xs.map fun x => ⟨x, default⟩

/-- The tokens have the lexemes that they are made of. -/
@[simp] theorem map_lexeme_tokensOf (xs : List Lexeme) : (tokensOf xs).map Token.lexeme = xs := by
  rw [tokensOf, List.map_map]
  exact List.map_id xs

/-- The first lexemes stand ahead of the others. -/
theorem ahead_tokensOf (xs ys : List Lexeme) : Ahead xs (tokensOf (xs ++ ys)) (tokensOf ys) :=
  ⟨tokensOf xs, map_lexeme_tokensOf xs, List.map_append⟩

namespace Parser

section

variable {α : Type} {p : Reader α} {cost : Nat} {xs : List Lexeme}

/-- A reader that takes lexemes succeeds on them, with enough fuel. -/
theorem Reader.Takes.eq_ok {a : α} (takes : p.Takes cost xs a) (stop : Pos) (ys : List Lexeme) :
    ∃ fuel, p stop fuel (tokensOf (xs ++ ys)) = .ok (a, tokensOf ys) :=
  ⟨_, takes (ahead_tokensOf xs ys) (Nat.le_refl _)⟩

/-- A reader that refuses lexemes fails on them, with enough fuel. -/
theorem Reader.Refuses.eq_error {x : Lexeme} (refuses : p.Refuses cost (xs ++ [x])) (stop : Pos)
    (ys : List Lexeme) : ∃ fuel fault, p stop fuel (tokensOf (xs ++ x :: ys)) = .error fault := by
  rw [List.append_cons]
  exact ⟨_, refuses (ahead_tokensOf (xs ++ [x]) ys) (Nat.le_refl _)⟩

end

open Grammar

variable {ar : Arith} {stop : Pos} {tokens rest : List Token} {fault : SyntaxFault}

/-- The lexemes are those of a term. -/
def TermLexemes (ar : Arith) (xs : List Lexeme) : Prop :=
  ∃ t, Nonempty (Derivation ar [] xs t)

/-- Lexemes are those of a term if it is read from them. -/
theorem termLexemes_iff {xs : List Lexeme} (stop : Pos) :
    TermLexemes ar xs ↔ ∃ t, closedTerm ar stop (tokensOf xs) = .ok (t, []) := by
  simp only [TermLexemes, closedTerm_ok_iff]
  refine exists_congr fun t => ⟨fun derivation => ⟨xs, ?_, derivation⟩, ?_⟩
  · simpa [tokensOf] using ahead_tokensOf xs []
  · rintro ⟨ys, ⟨front, rfl, same⟩, derivation⟩
    rw [List.append_nil] at same
    rwa [← same, map_lexeme_tokensOf] at derivation

/-- Reading a closed term is predictive. -/
theorem predictive_closedTerm (ar : Arith) (cost fuel : Nat) :
    Reader.Predictive (fun stop _ tokens => closedTerm ar stop tokens) cost fuel := by
  intro stop tokens _
  have explains := @(foreseeing ar (depth tokens)).term [] stop tokens (Nat.le_refl _)
  refine explains.behind (.nil tokens) (fun takes => ?_) fun _ _ refuses => ?_
  · exact fun _ _ tokens _ ahead _ => takes ahead (Nat.le_refl (depth tokens))
  · exact fun _ _ tokens _ ahead _ => refuses ahead (Nat.le_refl (depth tokens))

/-- The outcome of reading a closed term is settled by the tokens passed over. -/
theorem explains_closedTerm (ar : Arith) (stop : Pos) (tokens : List Token) :
    Reader.Explains (fun stop _ tokens => closedTerm ar stop tokens) 0 stop tokens
      (closedTerm ar stop tokens) :=
  predictive_closedTerm ar 0 _ (Nat.le_refl _)

/-- A term is taken, with nothing behind it. -/
theorem termLexemes_append_iff {cost : Nat} {xs ys : List Lexeme} {t : Term}
    (takes : Reader.Takes (fun stop _ tokens => closedTerm ar stop tokens) cost xs t) :
    TermLexemes ar (xs ++ ys) ↔ ys = [] := by
  obtain ⟨_, read⟩ := takes.eq_ok default ys
  rw [termLexemes_iff default, read]
  constructor
  · rintro ⟨_, same⟩
    cases ys with
    | nil => rfl
    | cons y ys => cases same
  · rintro rfl
    exact ⟨t, rfl⟩

/-- The reader of terms fails at the first token that is out of place. -/
theorem outOfPlace_of_closedTerm (fails : closedTerm ar stop tokens = .error fault) :
    OutOfPlace (TermLexemes ar) stop tokens fault.pos := by
  have explains := explains_closedTerm ar stop tokens
  rw [fails] at explains
  obtain ⟨xs, rest, ahead, place, ⟨more, t, writable, takes⟩, refuses⟩ := explains
  refine ⟨xs, rest, ahead, place, ⟨more, writable, ?_⟩, ?_⟩
  · rw [← List.append_nil (xs ++ more)]
    exact (termLexemes_append_iff takes).2 rfl
  · intro token first more accepted
    obtain ⟨t, read⟩ := (termLexemes_iff default).1 accepted
    obtain ⟨_, fault, fails⟩ := (refuses token first).eq_error default more
    rw [read] at fails
    cases fails

/-- What comes behind a term is out of place. -/
theorem outOfPlace_behind_term {t : Term} (read : closedTerm ar stop tokens = .ok (t, rest)) :
    OutOfPlace (TermLexemes ar) stop tokens (next stop rest).pos := by
  have explains := explains_closedTerm ar stop tokens
  rw [read] at explains
  obtain ⟨xs, ahead, takes⟩ := explains
  refine ⟨xs, rest, ahead, rfl, ⟨[], List.forall_mem_nil _, ?_⟩, ?_⟩
  · exact (termLexemes_append_iff takes).2 rfl
  · intro token _ more accepted
    exact List.cons_ne_nil _ _ ((termLexemes_append_iff takes).1 accepted)

/-! ### Definitions -/

/-- The reader of a definition, without what it finds. -/
def skipDefinition (ar : Arith) : Reader Unit := fun stop _ tokens => do
  let (_, rest) ← name stop tokens
  if atSymbol ":" rest then
    let (_, rest) ← closedTerm ar stop rest.tail
    let rest ← symbol stop "=" rest
    let (_, rest) ← closedTerm ar stop rest
    pure ((), rest)
  else
    let rest ← symbol stop "=" rest
    let (_, rest) ← closedTerm ar stop rest
    pure ((), rest)

/-- The reader passes over what the reader of definitions does. -/
theorem skipDefinition_eq (stop : Pos) (fuel : Nat) (tokens : List Token) :
    skipDefinition ar stop fuel tokens =
      (definition ar stop tokens).map fun out => ((), out.2) := by
  rw [skipDefinition, definition]
  cases name stop tokens with
  | error fault => rfl
  | ok out =>
      simp only [ok_bind]
      split
      · cases closedTerm ar stop out.2.tail with
        | error fault => rfl
        | ok out =>
            simp only [ok_bind, pure_eq_ok]
            cases symbol stop "=" out.2 with
            | error fault => rfl
            | ok rest =>
                simp only [ok_bind]
                cases closedTerm ar stop rest <;> rfl
      · simp only [ok_bind, pure_eq_ok]
        cases symbol stop "=" out.2 with
        | error fault => rfl
        | ok rest =>
            simp only [ok_bind]
            cases closedTerm ar stop rest <;> rfl

/-- Passing over a definition is predictive. -/
theorem predictive_skipDefinition (ar : Arith) (cost fuel : Nat) :
    (skipDefinition ar).Predictive cost fuel := by
  refine Reader.predictive_name.bind fun self => ?_
  show Reader.Predictive (fun stop fuel rest => if atSymbol ":" rest then _ else _) cost fuel
  refine .choice (fun _ _ _ _ => by rw [if_pos atSymbol_self, List.tail_cons])
    (fun _ _ _ other => by rw [if_neg other]) ?_ ?_ (Nat.le_add_right cost 2) ?_
  · exact (predictive_closedTerm ar cost fuel).bind fun type => .symbol (by decide) <|
      (predictive_closedTerm ar cost fuel).bind fun body => .pure ()
  · exact .symbol (by decide) <| (predictive_closedTerm ar cost fuel).bind fun body => .pure ()
  · exact Reader.refuses_first fun _ _ _ _ => ⟨_, rfl⟩

/-- The lexemes are those of some definitions. -/
def FileLexemes (ar : Arith) (xs : List Lexeme) : Prop :=
  ∃ definitions, Splits ar (tokensOf xs) definitions

/-- Whether a definition is written depends on the lexemes only. -/
theorem written_of_lexemes {tokens tokens' : List Token} {definition : Definition}
    (written : Written ar tokens definition)
    (same : tokens'.map Token.lexeme = tokens.map Token.lexeme) :
    ∃ definition', Written ar tokens' definition' := by
  cases written with
  | plain plain spelled inner =>
      obtain ⟨⟨_, pos⟩, more, rfl, rfl, others⟩ := List.map_eq_cons_iff.1 same
      exact ⟨_, .plain plain (others.trans spelled) inner⟩
  | annotated plain spelled first second =>
      obtain ⟨⟨_, pos⟩, more, rfl, rfl, others⟩ := List.map_eq_cons_iff.1 same
      exact ⟨_, .annotated plain (others.trans spelled) first second⟩

/-- Whether tokens are those of definitions does not depend on where they stand. -/
theorem splits_of_lexemes {tokens tokens' : List Token} {definitions : List Definition}
    (splits : Splits ar tokens definitions)
    (same : tokens'.map Token.lexeme = tokens.map Token.lexeme) :
    ∃ definitions', Splits ar tokens' definitions' := by
  induction splits generalizing tokens' with
  | nil =>
      obtain rfl := List.map_eq_nil_iff.1 same
      exact ⟨[], .nil⟩
  | cons first _ ih =>
      rw [List.map_append] at same
      obtain ⟨front, rest, rfl, front_same, rest_same⟩ := List.map_eq_append_iff.1 same
      obtain ⟨definition, written⟩ := written_of_lexemes first front_same
      obtain ⟨definitions, others⟩ := ih rest_same
      exact ⟨_, .cons written others⟩

/-- Lexemes are those of definitions if tokens with these split into some. -/
theorem fileLexemes_iff : FileLexemes ar (tokens.map Token.lexeme) ↔
    ∃ definitions, Splits ar tokens definitions := by
  constructor
  · rintro ⟨_, splits⟩
    exact splits_of_lexemes splits (by simp)
  · rintro ⟨_, splits⟩
    exact splits_of_lexemes splits (by simp)

/-- Tokens are those of definitions if there is one at their front and others behind it. -/
theorem exists_splits_iff (stop : Pos) (some : tokens ≠ []) :
    (∃ definitions, Splits ar tokens definitions) ↔ ∃ found rest,
      definition ar stop tokens = .ok (found, rest) ∧ ∃ definitions, Splits ar rest definitions := by
  cases tokens with
  | nil => exact absurd rfl some
  | cons token tokens =>
      simp only [splits_cons_iff, definition_ok_iff]
      constructor
      · rintro ⟨_, found, rest, read, others, splits, -⟩
        exact ⟨found, rest, read, others, splits⟩
      · rintro ⟨found, rest, read, others, splits⟩
        exact ⟨_, found, rest, read, others, splits, rfl⟩

/-- Without tokens there is no definition. -/
theorem skipDefinition_nil (stop : Pos) (fuel : Nat) :
    ∃ fault, skipDefinition ar stop fuel [] = .error fault :=
  ⟨_, rfl⟩

/-- Behind a definition come others. -/
theorem fileLexemes_append_iff {cost : Nat} {xs ys : List Lexeme}
    (takes : (skipDefinition ar).Takes cost xs ()) :
    FileLexemes ar (xs ++ ys) ↔ FileLexemes ar ys := by
  have some : tokensOf (xs ++ ys) ≠ [] := by
    have positive := takes.length_pos skipDefinition_nil
    rw [← List.length_pos_iff, tokensOf, List.length_map, List.length_append]
    omega
  obtain ⟨fuel, skipped⟩ := takes.eq_ok default ys
  rw [skipDefinition_eq] at skipped
  rw [FileLexemes, exists_splits_iff default some]
  cases outcome : definition ar default (tokensOf (xs ++ ys)) with
  | error fault =>
      rw [outcome] at skipped
      cases skipped
  | ok out =>
      rw [outcome] at skipped
      obtain ⟨found, rest⟩ := out
      obtain rfl : rest = tokensOf ys := congrArg Prod.snd (Except.ok.inj skipped)
      constructor
      · rintro ⟨_, _, same, splits⟩
        cases same
        exact splits
      · exact fun splits => ⟨_, _, rfl, splits⟩

/-- The reader of definitions fails at the first token that is out of place. -/
theorem outOfPlace_of_definitions {fuel : Nat} (enough : tokens.length ≤ fuel)
    (fails : definitions ar stop fuel tokens = .error fault) :
    OutOfPlace (FileLexemes ar) stop tokens fault.pos := by
  induction fuel generalizing tokens with
  | zero => cases fails
  | succ fuel ih =>
      cases tokens with
      | nil => cases fails
      | cons token tokens =>
          have explains := @predictive_skipDefinition ar 0 _ stop (token :: tokens) (Nat.le_refl _)
          rw [skipDefinition_eq] at explains
          replace fails : (definition ar stop (token :: tokens) >>= fun out =>
            definitions ar stop fuel out.2 >>= fun more => pure (out.1 :: more)) = .error fault := fails
          cases outcome : definition ar stop (token :: tokens) with
          | error fault' =>
              rw [outcome] at explains fails
              cases fails
              obtain ⟨xs, rest, ahead, place, ⟨more, _, writable, takes⟩, refuses⟩ := explains
              refine ⟨xs, rest, ahead, place, ⟨more, writable, ?_⟩, ?_⟩
              · rw [← List.append_nil (xs ++ more)]
                exact (fileLexemes_append_iff takes).2 ⟨[], .nil⟩
              · intro token first more accepted
                obtain ⟨_, _, fails⟩ := (refuses token first).eq_error default more
                rw [FileLexemes, exists_splits_iff default (by simp [tokensOf])] at accepted
                obtain ⟨_, _, read, -⟩ := accepted
                rw [skipDefinition_eq, read] at fails
                cases fails
          | ok out =>
              rw [outcome] at explains fails
              obtain ⟨ys, ahead, takes⟩ := explains
              have length := ahead.length_eq
              have positive := takes.length_pos skipDefinition_nil
              have later : definitions ar stop fuel out.2 = .error fault := by
                rw [ok_bind] at fails
                cases others : definitions ar stop fuel out.2 with
                | error fault' =>
                    rw [others] at fails
                    cases fails
                    rfl
                | ok more =>
                    rw [others] at fails
                    cases fails
              obtain ⟨xs, rest, ahead', place, ⟨more, writable, accepted⟩, never⟩ :=
                ih (by rw [List.length_cons] at *; omega) later
              refine ⟨ys ++ xs, rest, ahead.append ahead', place, ⟨more, writable, ?_⟩, ?_⟩
              · rw [List.append_assoc]
                exact (fileLexemes_append_iff takes).2 accepted
              · intro token first more accepted
                rw [List.append_assoc] at accepted
                exact never token first more ((fileLexemes_append_iff takes).1 accepted)

end Parser

/-! ## Source texts -/

/-- Tokens with the one for the end of the source behind them. -/
def Token.closed (tokens : List Token) (stop : Pos) : List Token :=
  tokens ++ [⟨.eof, stop⟩]

/-- For a way to read source texts, the position is that of the first of the tokens at which it has to
fail: some source text with the tokens before this one can be read, but none in which this one comes
next. -/
def FirstOffence {α : Type} (parse : (source : String) → Except SyntaxError α) (file : String)
    (tokens : List Token) (pos : Pos) : Prop :=
  ∃ before token after, tokens = before ++ token :: after ∧ token.pos = pos ∧
    (∃ source more stop a, tokenize file source = .ok (before ++ more, stop) ∧
      parse source = .ok a) ∧
    ∀ source others stop, tokenize file source = .ok (others, stop) →
      (before ++ [token]).map Token.lexeme <+: (Token.closed others stop).map Token.lexeme →
      ∀ a, parse source ≠ .ok a

section

variable {α : Type} {parse : String → Except SyntaxError α} {accepted : List Lexeme → Prop}
  {file source : String} {tokens : List Token} {stop : Pos}

/-- The end of the source is none of its tokens. -/
theorem eof_not_mem (lexed : tokenize file source = .ok (tokens, stop)) :
    Lexeme.eof ∉ tokens.map Token.lexeme := by
  intro found
  obtain ⟨token, member, same⟩ := List.mem_map.1 found
  exact (layout_of_tokenize lexed).1.lexeme_ne_eof member same

/-- Where a token of a source is out of place, reading the source fails first. -/
theorem OutOfPlace.firstOffence {pos : Pos}
    (reads : ∀ {source tokens stop}, tokenize file source = .ok (tokens, stop) →
      ((∃ a, parse source = .ok a) ↔ accepted (tokens.map Token.lexeme)))
    (lexed : tokenize file source = .ok (tokens, stop)) (fails : ∀ a, parse source ≠ .ok a)
    (out : OutOfPlace accepted stop tokens pos) :
    FirstOffence parse file (Token.closed tokens stop) pos := by
  obtain ⟨xs, rest, ⟨front, rfl, rfl⟩, rfl, ⟨more, writable, completed⟩, never⟩ := out
  have completion : ∃ source more stop a,
      tokenize file source = .ok (front ++ more, stop) ∧ parse source = .ok a := by
    obtain ⟨source', later, stop', rfl, lexed'⟩ := exists_completion lexed writable
    rw [← List.map_append] at completed
    obtain ⟨a, read⟩ := (reads lexed').2 completed
    exact ⟨source', later, stop', a, lexed', read⟩
  cases rest with
  | nil =>
      rw [List.append_nil] at lexed ⊢
      refine ⟨front, ⟨.eof, stop⟩, [], rfl, rfl, completion, ?_⟩
      intro source' others stop' lexed' start a read
      rw [Token.closed, List.map_append, List.map_append] at start
      rcases List.prefix_concat_iff.1 start with same | shorter
      · -- The other source has the same tokens to its end, and cannot be read either.
        have all : others.map Token.lexeme = front.map Token.lexeme :=
          (List.append_cancel_right same).symm
        obtain ⟨b, read'⟩ := (reads lexed).2 (all ▸ (reads lexed').1 ⟨a, read⟩)
        exact fails b read'
      · exact eof_not_mem lexed' (shorter.subset (by simp))
  | cons token rest =>
      refine ⟨front, token, Token.closed rest stop, by simp [Token.closed], rfl, completion, ?_⟩
      intro source' others stop' lexed' start a read
      rw [Token.closed, List.map_append, List.map_append] at start
      rcases List.prefix_concat_iff.1 start with same | ⟨more, same⟩
      · have last : token.lexeme = .eof := by simpa using (List.append_inj' same rfl).2
        exact eof_not_mem lexed (by simp [← last])
      · refine never token rfl more ?_
        have all : others.map Token.lexeme = front.map Token.lexeme ++ token.lexeme :: more := by
          simpa using same.symm
        rw [← all]
        exact (reads lexed').1 ⟨a, read⟩

/-- A term is read from the tokens of the source, and nothing may be left. -/
theorem parseTerm_eq (ar : Arith) (lexed : tokenize file source = .ok (tokens, stop)) :
    parseTerm ar file source = Except.mapError (fun fault => ⟨fault.pos, fault.problem, source⟩)
      (Parser.closedTerm ar stop tokens >>= fun out =>
        if out.2.isEmpty then pure out.1 else Parser.failure stop out.2 .unexpected) := by
  rw [parseTerm, lexed]
  rfl

/-- Definitions are read from the tokens of the source. -/
theorem parseFile_eq (ar : Arith) (lexed : tokenize file source = .ok (tokens, stop)) :
    parseFile ar file source = Except.mapError (fun fault => ⟨fault.pos, fault.problem, source⟩)
      (Parser.definitions ar stop tokens.length tokens) := by
  rw [parseFile, lexed]
  rfl

/-- What holds of the tokens of a source holds of those that the lexer finds. -/
theorem exists_lexed_iff {P : List Token → Prop}
    (lexed : tokenize file source = .ok (tokens, stop)) :
    (∃ tokens stop, tokenize file source = .ok (tokens, stop) ∧ P tokens) ↔ P tokens := by
  constructor
  · rintro ⟨_, _, lexed', holds⟩
    rw [lexed] at lexed'
    cases lexed'
    exact holds
  · exact fun holds => ⟨tokens, stop, lexed, holds⟩

/-- A source is read as a term if its lexemes are those of one. -/
theorem exists_parseTerm_iff {ar : Arith} (lexed : tokenize file source = .ok (tokens, stop)) :
    (∃ t, parseTerm ar file source = .ok t) ↔
      Parser.TermLexemes ar (tokens.map Token.lexeme) :=
  exists_congr fun _ => parseTerm_ok_iff.trans (exists_lexed_iff lexed)

/-- A source is read as definitions if its lexemes are those of some. -/
theorem exists_parseFile_iff {ar : Arith} (lexed : tokenize file source = .ok (tokens, stop)) :
    (∃ definitions, parseFile ar file source = .ok definitions) ↔
      Parser.FileLexemes ar (tokens.map Token.lexeme) := by
  rw [Parser.fileLexemes_iff]
  exact exists_congr fun _ => parseFile_ok_iff.trans (exists_lexed_iff lexed)

end

/-- A syntax error points at the first token that is out of place, whether a term is read or
definitions. -/
theorem syntax_error_first_offence {ar : Arith} {file source : String} {tokens : List Token}
    {stop : Pos} (lexed : tokenize file source = .ok (tokens, stop)) :
    (∀ e, parseTerm ar file source = .error e →
      FirstOffence (parseTerm ar file) file (Token.closed tokens stop) e.pos) ∧
    ∀ e, parseFile ar file source = .error e →
      FirstOffence (parseFile ar file) file (Token.closed tokens stop) e.pos := by
  constructor
  · intro e fails
    have place : OutOfPlace (Parser.TermLexemes ar) stop tokens e.pos := by
      rw [parseTerm_eq ar lexed] at fails
      cases outcome : Parser.closedTerm ar stop tokens with
      | error fault =>
          rw [outcome] at fails
          cases fails
          exact Parser.outOfPlace_of_closedTerm outcome
      | ok out =>
          obtain ⟨t, rest⟩ := out
          rw [outcome] at fails
          cases rest with
          | nil => cases fails
          | cons token rest =>
              cases fails
              exact Parser.outOfPlace_behind_term outcome
    refine place.firstOffence (fun lexed => exists_parseTerm_iff lexed) lexed fun t read => ?_
    rw [fails] at read
    cases read
  · intro e fails
    have place : OutOfPlace (Parser.FileLexemes ar) stop tokens e.pos := by
      rw [parseFile_eq ar lexed] at fails
      cases outcome : Parser.definitions ar stop tokens.length tokens with
      | error fault =>
          rw [outcome] at fails
          cases fails
          exact Parser.outOfPlace_of_definitions (Nat.le_refl _) outcome
      | ok definitions =>
          rw [outcome] at fails
          cases fails
    refine place.firstOffence (fun lexed => exists_parseFile_iff lexed) lexed fun found read => ?_
    rw [fails] at read
    cases read

/-- A declaration that repeats a constructor. -/
def repeatedConstructor : String :=
  "data D : Type \x7b c : D; c : D \x7d"

/-- The repeated name is out of place in a term, and the first token in definitions. -/
theorem repeatedConstructor_first_offence : ∃ tokens stop e e',
    tokenize "" repeatedConstructor = .ok (tokens, stop) ∧
    parseTerm .word "" repeatedConstructor = .error e ∧ e.pos = ⟨"", 1, 24⟩ ∧
    FirstOffence (parseTerm .word "") "" (Token.closed tokens stop) e.pos ∧
    parseFile .word "" repeatedConstructor = .error e' ∧ e'.pos = ⟨"", 1, 1⟩ ∧
    FirstOffence (parseFile .word "") "" (Token.closed tokens stop) e'.pos := by
  obtain ⟨⟨tokens, stop⟩, lexed⟩ : ∃ out, tokenize "" repeatedConstructor = .ok out := ⟨_, rfl⟩
  obtain ⟨e, term, place⟩ : ∃ e, parseTerm .word "" repeatedConstructor = .error e ∧
      e.pos = ⟨"", 1, 24⟩ := ⟨_, rfl, rfl⟩
  obtain ⟨e', file, place'⟩ : ∃ e, parseFile .word "" repeatedConstructor = .error e ∧
      e.pos = ⟨"", 1, 1⟩ := ⟨_, rfl, rfl⟩
  obtain ⟨of_term, of_file⟩ := syntax_error_first_offence lexed
  exact ⟨tokens, stop, e, e', lexed, term, place, of_term e term, file, place', of_file e' file⟩

end BoxCalculus
