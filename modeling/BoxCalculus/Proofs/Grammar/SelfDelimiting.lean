import BoxCalculus.Proofs.Grammar.InPlace
import BoxCalculus.Proofs.Grammar.Soundness
import BoxCalculus.Proofs.Lexing

/-!
# Terms are self-delimiting

A reader in place that starts on a term passes over a block of tokens or fails. It leaves the scope as
it was, and what it finds in the block does not depend on what stands behind it. So reading a source
text in place comes to an end without looking outside of the text, with the result of the parser
(`terms_self_delimiting`).
-/

namespace BoxCalculus.InPlace

section Terms

variable {ar : Arith} {tokens : List Token} {stop : Pos} {fuel : Nat} {scope : List String}
  {i j : Nat} {t : Term}

/-- What a term was read from can be followed by anything else. -/
theorem term_block (le : i ≤ j) (inside : j ≤ tokens.length)
    (read : Parser.term ar stop fuel scope (tokens.drop i) = .ok (t, tokens.drop j))
    (others : List Token) (stop' : Pos) (fuel' : Nat) (enough : j - i ≤ fuel') :
    Parser.term ar stop' fuel' scope ((tokens.take j).drop i ++ others) = .ok (t, others) := by
  obtain ⟨xs, ⟨block, spelled, split⟩, ⟨derivation⟩⟩ := (Parser.sound ar fuel).of_term read
  have length : block.length = j - i := by
    have := congrArg List.length split
    rw [List.length_append, List.length_drop, List.length_drop] at this
    omega
  have same : (tokens.take j).drop i = block := by
    rw [List.drop_take, split, ← length, List.take_left]
  rw [same]
  refine (Parser.complete ar fuel').term_eq derivation ⟨block, spelled, rfl⟩ ?_
  rwa [← spelled, List.length_map, length]

/-- The parser reads terms with fuel for all tokens that are left. -/
theorem mirrors_term {row : Row} {clock : Nat} (le : i ≤ row.ahead.length)
    (enough : 2 * (row.ahead.length - i) < clock) :
    Mirrors row (i + 1) (term ar row.tokens clock) scope i
      (Parser.term ar row.stop (Parser.depth (row.ahead.drop i)) scope.reverse
        (row.ahead.drop i)) := by
  have depth : Parser.depth (row.ahead.drop i) = 2 * (row.ahead.length - i) + 1 := by
    rw [Parser.depth, List.length_drop]
  exact (simulated ar row _ clock).of_term le (by omega)

/-- So can what a term was read from in place. -/
theorem endsWith_others (lt : i < j) (inside : j ≤ tokens.length)
    (read : Parser.term ar stop fuel scope.reverse (tokens.drop i) = .ok (t, tokens.drop j))
    {others : List Token} (nonempty : others ≠ []) :
    EndsWith (term ar (tokens.take j ++ others)) ⟨i, scope⟩ (.ok t, ⟨j, scope⟩) := by
  have before : (tokens.take j).length = j := List.length_take_of_le inside
  have some := List.length_pos_of_ne_nil nonempty
  -- There is no end behind this row, but not all of the others in it are passed over.
  let row : Row := ⟨tokens.take j ++ others, [], stop⟩
  have all : row.ahead.length = j + others.length := by
    rw [← before]
    exact List.length_append
  have after : row.ahead.drop i = (tokens.take j).drop i ++ others :=
    List.drop_append_of_le_length (by omega)
  have enough : j - i ≤ Parser.depth (row.ahead.drop i) := by
    rw [Parser.depth, List.length_drop]
    omega
  have again := term_block (Nat.le_of_lt lt) inside read others stop _ enough
  rw [← after] at again
  have mirrors : Mirrors row (i + 1) (term ar row.tokens (2 * (row.ahead.length - i) + 1)) scope i _ :=
    mirrors_term (by omega) (Nat.lt_succ_self _)
  obtain ⟨j', past, le, rest, run⟩ := mirrors.of_ok again
  have length : others.length = row.ahead.length - j' := by rw [rest, List.length_drop]
  obtain rfl : j' = j := by omega
  have found := endsWith_term (run (.inl (by omega)))
  rwa [Row.tokens, List.append_nil] at found

end Terms

section Sources

variable {ar : Arith} {row : Row} {i clock : Nat}

/-- A definition is read in place as by the parser. -/
theorem mirrors_definition (le : i ≤ row.ahead.length)
    (enough : 2 * (row.ahead.length - i) < clock) :
    Mirrors row (i + 1) (definition row.tokens (term ar row.tokens clock)) [] i
      (Parser.definition ar row.stop (row.ahead.drop i)) := by
  rw [Parser.definition]
  refine .peek le (Nat.le_succ i) ?_
  refine (Mirrors.name le).bind (Nat.le_refl _) fun self j₁ past le => ?_
  have body (type? : Option Term) (pos : Pos) (j : Nat) (past' : j₁ ≤ j)
      (le : j ≤ row.ahead.length) :
      Mirrors row j (do
        symbol row.tokens "="
        let body ← term ar row.tokens clock
        pure (Definition.mk self type? body pos)) [] j
      (Parser.symbol row.stop "=" (row.ahead.drop j) >>= fun rest =>
        Parser.closedTerm ar row.stop rest >>= fun found =>
          pure (Definition.mk self type? found.1 pos, found.2)) := by
    refine (Mirrors.symbol "=" le).andThen (by omega) fun j₂ past le => ?_
    refine (mirrors_term le (by omega)).bind (by omega) fun body j₃ past le => ?_
    exact .pure le _
  refine .ite le (fun inside => ?_) (body none _ j₁ (Nat.le_refl _) le)
  rw [List.tail_drop]
  refine (mirrors_term inside (by omega)).bind (by omega) fun type j₂ past le => ?_
  exact body (some type) _ j₂ (by omega) le

/-- At the end of the row there are no more definitions. -/
theorem mirrors_definitions_end (ar : Arith) (row : Row) (clock : Nat) :
    Mirrors row row.ahead.length (definitions ar row.tokens (clock + 1)) [] row.ahead.length
      (.ok ([], [])) := by
  have ends : (Parser.next row.stop (row.ahead.drop row.ahead.length)).lexeme = .eof := by
    rw [List.drop_length]
    rfl
  have empty : Mirrors row row.ahead.length (definitions ar row.tokens (clock + 1)) []
      row.ahead.length (pure ([], row.ahead.drop row.ahead.length)) := by
    rw [definitions]
    refine .comes (Nat.le_refl _) (Nat.le_refl _) ?_
    rw [decide_eq_true ends]
    exact .pure (Nat.le_refl _) _
  rwa [List.drop_length] at empty

/-- The parser reads a definition, and then the others. -/
theorem definitions_cons (ar : Arith) (stop : Pos) (fuel : Nat) (token : Token)
    (rest : List Token) :
    (Parser.definitions ar stop (fuel + 1) (token :: rest)).map (·, ([] : List Token)) = (do
      let (first, rest) ← Parser.definition ar stop (token :: rest)
      let (more, rest) ← (Parser.definitions ar stop fuel rest).map (·, [])
      pure (first :: more, rest)) := by
  rw [Parser.definitions]
  cases Parser.definition ar stop (token :: rest) with
  | error fault => rfl
  | ok found =>
      obtain ⟨first, later⟩ := found
      change Except.map _ (Parser.definitions ar stop fuel later >>= _) =
        Except.map _ (Parser.definitions ar stop fuel later) >>= _
      cases Parser.definitions ar stop fuel later <;> rfl
  · exact List.cons_ne_nil token rest

/-- The definitions are read up to the end of the row. -/
theorem mirrors_definitions (plain : row.Plain) {fuel : Nat}
    (le : i ≤ row.ahead.length) (enough : row.ahead.length - i ≤ fuel)
    (time : 2 * (row.ahead.length - i) + 1 < clock) :
    Mirrors row i (definitions ar row.tokens clock) [] i
      ((Parser.definitions ar row.stop fuel (row.ahead.drop i)).map (·, [])) := by
  induction fuel generalizing i clock with
  | zero =>
      obtain rfl : i = row.ahead.length := by omega
      obtain ⟨clock, rfl⟩ : ∃ less, clock = less + 1 := ⟨clock - 1, by omega⟩
      exact mirrors_definitions_end ar row clock
  | succ fuel ih =>
      obtain ⟨clock, rfl⟩ : ∃ less, clock = less + 1 := ⟨clock - 1, by omega⟩
      cases here : row.ahead.drop i with
      | nil =>
          obtain rfl : i = row.ahead.length := Nat.le_antisymm le (List.drop_eq_nil_iff.1 here)
          exact mirrors_definitions_end ar row clock
      | cons token rest =>
          have member : token ∈ row.ahead := List.mem_of_mem_drop (here ▸ List.mem_cons_self)
          rw [definitions, definitions_cons, ← here]
          refine .comes le (Nat.le_refl i) ?_
          rw [here, Parser.next, decide_eq_false (plain token member), if_neg Bool.false_ne_true,
            ← here]
          refine (mirrors_definition le (by omega)).bind (Nat.le_succ i) fun first j₁ past le => ?_
          refine (ih le (by omega) (by omega)).bind (Nat.le_refl j₁) fun more j₂ past le => ?_
          exact .pure le _

/-- A source that is a term is read in place as by the parser. -/
theorem mirrors_closedTerm (plain : row.Plain) (time : 2 * row.ahead.length < clock) :
    Mirrors row 0 (closedTerm ar row.tokens clock) [] 0 (do
      let (t, rest) ← Parser.closedTerm ar row.stop row.ahead
      if rest.isEmpty then pure (t, rest) else Parser.failure row.stop rest .unexpected) := by
  refine (mirrors_term (Nat.zero_le _) time).bind (Nat.zero_le _) fun t j past le => ?_
  refine .comes le (Nat.le_refl j) ?_
  cases here : row.ahead.drop j with
  | nil =>
      change Mirrors row j (pure t) [] j (pure (t, []))
      rw [← here]
      exact .pure le t
  | cons token rest =>
      have member : token ∈ row.ahead := List.mem_of_mem_drop (here ▸ List.mem_cons_self)
      rw [Parser.next, decide_eq_false (plain token member)]
      change Mirrors row j (failure row.tokens .unexpected) [] j
        (Parser.failure row.stop (token :: rest) .unexpected)
      rw [← here]
      exact .failure le _

/-- In a source the reader comes to the end of it or fails, and what it finds is what it mirrors. -/
theorem Mirrors.runFrom_eq {α : Type} {reader : InPlace α} {low : Nat} {scope : List String}
    {result : Except SyntaxFault (α × List Token)}
    (mirrors : Mirrors row low reader scope i result) (ended : row.Ended) (plain : row.Plain) :
    ∃ j, reader.runFrom ⟨i, scope⟩ =
      some ((result.map Prod.fst).mapError .fault, ⟨j, scope⟩) := by
  cases mirrors with
  | found low_le le run => exact ⟨_, run (.inr ended)⟩
  | failed run =>
      obtain ⟨j, le, found, failed, same⟩ := run ended
      rw [same plain] at failed
      exact ⟨j, failed⟩

/-- A reader that mirrors the parser in every source finds in a source what the parser finds. -/
theorem exists_readInPlace_eq {α : Type} {reader : List Token → (clock : Nat) → InPlace α}
    {parse : List Token → Pos → Except SyntaxFault (α × List Token)}
    (mirrors : ∀ tokens stop clock, Row.Plain ⟨tokens, [⟨.eof, stop⟩], stop⟩ →
      2 * tokens.length + 1 < clock →
      Mirrors ⟨tokens, [⟨.eof, stop⟩], stop⟩ 0 (reader (tokens ++ [⟨.eof, stop⟩]) clock) [] 0
        (parse tokens stop)) (file source : String) :
    ∃ enough, ∀ clock, enough ≤ clock → readInPlace reader file source clock =
      some ((tokenize file source >>= fun lexed => (parse lexed.1 lexed.2).map Prod.fst).mapError
        .fault) := by
  cases lexed : tokenize file source with
  | error fault =>
      refine ⟨0, fun clock _ => ?_⟩
      rw [readInPlace, lexed]
      rfl
  | ok out =>
      obtain ⟨tokens, stop⟩ := out
      have plain : Row.Plain ⟨tokens, [⟨.eof, stop⟩], stop⟩ := fun _ found =>
        (layout_of_tokenize lexed).1.lexeme_ne_eof found
      refine ⟨2 * tokens.length + 2, fun clock time => ?_⟩
      obtain ⟨j, run⟩ := (mirrors tokens stop clock plain time).runFrom_eq rfl plain
      rw [readInPlace, lexed]
      dsimp only
      rw [run]
      rfl

/-- With enough time, a term is read from a source as by the parser. -/
theorem exists_readInPlace_closedTerm (ar : Arith) (file source : String) :
    ∃ enough, ∀ clock, enough ≤ clock → readInPlace (closedTerm ar) file source clock =
      some ((parseTerm ar file source).mapError fun error => .fault ⟨error.pos, error.problem⟩) := by
  have mirrors (tokens : List Token) (stop : Pos) (clock : Nat)
      (plain : Row.Plain ⟨tokens, [⟨.eof, stop⟩], stop⟩) (time : 2 * tokens.length + 1 < clock) :
      Mirrors ⟨tokens, [⟨.eof, stop⟩], stop⟩ 0 (closedTerm ar (tokens ++ [⟨.eof, stop⟩]) clock) [] 0
        (Parser.closedTerm ar stop tokens >>= fun found =>
          if found.2.isEmpty then pure found else Parser.failure stop found.2 .unexpected) :=
    mirrors_closedTerm plain (Nat.lt_of_succ_lt time)
  obtain ⟨enough, read⟩ := exists_readInPlace_eq mirrors file source
  refine ⟨enough, fun clock time => ?_⟩
  rw [read clock time, parseTerm]
  cases tokenize file source with
  | error fault => rfl
  | ok out =>
      obtain ⟨tokens, stop⟩ := out
      change some (Except.mapError _ (Except.map _ (Parser.closedTerm ar stop tokens >>= _))) =
        some (Except.mapError _ (Except.mapError _ (Parser.closedTerm ar stop tokens >>= _)))
      cases Parser.closedTerm ar stop tokens with
      | error fault => rfl
      | ok found =>
          obtain ⟨t, rest⟩ := found
          cases rest <;> rfl

/-- With enough time, definitions are read from a source as by the parser. -/
theorem exists_readInPlace_definitions (ar : Arith) (file source : String) :
    ∃ enough, ∀ clock, enough ≤ clock → readInPlace (definitions ar) file source clock =
      some ((parseFile ar file source).mapError fun error => .fault ⟨error.pos, error.problem⟩) := by
  have mirrors (tokens : List Token) (stop : Pos) (clock : Nat)
      (plain : Row.Plain ⟨tokens, [⟨.eof, stop⟩], stop⟩) (time : 2 * tokens.length + 1 < clock) :
      Mirrors ⟨tokens, [⟨.eof, stop⟩], stop⟩ 0 (definitions ar (tokens ++ [⟨.eof, stop⟩]) clock) []
        0 ((Parser.definitions ar stop tokens.length tokens).map (·, [])) :=
    mirrors_definitions plain (Nat.zero_le _) (Nat.le_refl _) time
  obtain ⟨enough, read⟩ := exists_readInPlace_eq mirrors file source
  refine ⟨enough, fun clock time => ?_⟩
  rw [read clock time, parseFile]
  cases tokenize file source with
  | error fault => rfl
  | ok out =>
      obtain ⟨tokens, stop⟩ := out
      change some (Except.mapError _ (Except.map _ (Except.map _ (Parser.definitions ar stop _ _)))) =
        some (Except.mapError _ (Except.mapError _ (Parser.definitions ar stop _ _)))
      cases Parser.definitions ar stop tokens.length tokens <;> rfl

end Sources

/-- A call of the reader of terms, at any place of a list of tokens that ends with the end of the source
and in any scope, fails or passes over a block of tokens, as the parser does. It leaves the scope as it
was in both cases, and any other tokens behind the block would have led to the same term and place. So
terms and definitions are read in place from every source text, as the parser reads them. -/
theorem terms_self_delimiting (ar : Arith) :
    (∀ (tokens : List Token) (stop : Pos) (i : Nat) (scope : List String), i ≤ tokens.length →
      (∃ t j, i < j ∧ j ≤ tokens.length ∧
        EndsWith (term ar (tokens ++ [⟨.eof, stop⟩])) ⟨i, scope⟩ (.ok t, ⟨j, scope⟩) ∧
        Parser.term ar stop (Parser.depth (tokens.drop i)) scope.reverse (tokens.drop i) =
          .ok (t, tokens.drop j) ∧
        ∀ others,
          (others ≠ [] →
            EndsWith (term ar (tokens.take j ++ others)) ⟨i, scope⟩ (.ok t, ⟨j, scope⟩)) ∧
          Parser.term ar stop (Parser.depth ((tokens.take j).drop i ++ others)) scope.reverse
            ((tokens.take j).drop i ++ others) = .ok (t, others)) ∨
      ∃ halt fault j, j ≤ tokens.length ∧
        EndsWith (term ar (tokens ++ [⟨.eof, stop⟩])) ⟨i, scope⟩
          (.error (.fault halt), ⟨j, scope⟩) ∧
        Parser.term ar stop (Parser.depth (tokens.drop i)) scope.reverse (tokens.drop i) =
          .error fault) ∧
    ∀ file source,
      (∃ enough, ∀ clock, enough ≤ clock → readInPlace (closedTerm ar) file source clock =
        some ((parseTerm ar file source).mapError fun error => .fault ⟨error.pos, error.problem⟩)) ∧
      ∃ enough, ∀ clock, enough ≤ clock → readInPlace (definitions ar) file source clock =
        some ((parseFile ar file source).mapError fun error => .fault ⟨error.pos, error.problem⟩) := by
  refine ⟨fun tokens stop i scope le => ?_, fun file source =>
    ⟨exists_readInPlace_closedTerm ar file source, exists_readInPlace_definitions ar file source⟩⟩
  have mirrors : Mirrors ⟨tokens, [⟨.eof, stop⟩], stop⟩ (i + 1)
      (term ar (tokens ++ [⟨.eof, stop⟩]) (2 * (tokens.length - i) + 1)) scope i _ :=
    mirrors_term le (Nat.lt_succ_self _)
  cases read : Parser.term ar stop (Parser.depth (tokens.drop i)) scope.reverse (tokens.drop i) with
  | ok found =>
      obtain ⟨t, rest⟩ := found
      obtain ⟨j, lt, inside, rfl, run⟩ := mirrors.of_ok read
      refine .inl ⟨t, j, lt, inside, endsWith_term (run (.inr rfl)), rfl, fun others =>
        ⟨endsWith_others lt inside read, ?_⟩⟩
      refine term_block (Nat.le_of_lt lt) inside read others stop _ ?_
      rw [Parser.depth, List.length_append, List.length_drop, List.length_take_of_le inside]
      omega
  | error fault =>
      obtain ⟨j, inside, halt, run, -⟩ := mirrors.of_error read rfl
      exact .inr ⟨halt, fault, j, inside, endsWith_term run, rfl⟩

/-- The tokens of `) [y] x )`. -/
def enclosed : List Token :=
  [.symbol ")", .symbol "[", .word "y", .symbol "]", .word "x", .symbol ")"].map (⟨·, .start ""⟩)

/-- The function between the parentheses is found there, and before a bracket too. -/
theorem terms_self_delimiting_enclosed :
    EndsWith (term .word (enclosed ++ [⟨.eof, .start ""⟩])) ⟨1, ["x"]⟩
      (.ok (.lam false "y" .hole (.var 1)), ⟨5, ["x"]⟩) ∧
    EndsWith (term .word (enclosed.take 5 ++ [⟨.symbol "]", .start ""⟩])) ⟨1, ["x"]⟩
      (.ok (.lam false "y" .hole (.var 1)), ⟨5, ["x"]⟩) := by
  have read : Parser.term .word (.start "") (Parser.depth (enclosed.drop 1)) ["x"] (enclosed.drop 1) =
      .ok (.lam false "y" .hole (.var 1), enclosed.drop 5) := rfl
  obtain ⟨t, j, lt, le, run, again, others⟩ | ⟨halt, fault, j, le, run, again⟩ :=
    (terms_self_delimiting .word).1 enclosed (.start "") 1 ["x"] (by decide)
  · obtain ⟨rfl, rest⟩ := Prod.mk.inj (Except.ok.inj (read.symm.trans again))
    have length : enclosed.length - 5 = enclosed.length - j := by
      rw [← List.length_drop, ← List.length_drop, rest]
    obtain rfl : j = 5 := by
      have : enclosed.length = 6 := rfl
      omega
    exact ⟨run, (others [⟨.symbol "]", .start ""⟩]).1 (List.cons_ne_nil _ _)⟩
  · cases read.symm.trans again

end BoxCalculus.InPlace
