import BoxCalculus.Proofs.Grammar.Soundness
import BoxCalculus.Proofs.Grammar.Unambiguity

/-!
# Parsing and derivations

A source text is read as a term if and only if its tokens derive the term, in one way only, with the
sums that the reader makes (`parseTerm_ok_iff`, `subsingleton_derivation`), and as definitions if and
only if its tokens are those of the definitions (`parseFile_ok_iff`).
-/

namespace BoxCalculus

namespace Parser

open Grammar

variable {ar : Arith} {stop : Pos} {tokens rest : List Token}

/-- A closed term is read exactly where the grammar derives one. -/
theorem closedTerm_ok_iff {t : Term} : closedTerm ar stop tokens = .ok (t, rest) ↔
    ∃ xs, Ahead xs tokens rest ∧ Nonempty (Derivation ar [] xs t) := by
  constructor
  · exact (sound ar _).of_term
  · rintro ⟨xs, ahead, ⟨derivation⟩⟩
    have enough : xs.length ≤ depth tokens := by
      rw [depth, ahead.length_eq]
      omega
    exact (complete ar _).term_eq derivation ahead enough

/-- What the reader finds behind a name is a definition of it. -/
theorem written_of_ok {name : String} {more : List Token} {pos : Pos} {definition : Definition}
    (plain : name ∉ keywords)
    (ok : Parser.definition ar stop (⟨.word name, pos⟩ :: more) = .ok (definition, rest)) :
    ∃ front, Written ar front definition ∧ ⟨.word name, pos⟩ :: more = front ++ rest := by
  rw [Parser.definition, name_word plain] at ok
  simp only [ok_bind] at ok
  split at ok
  · rename_i colon
    simp only [bind_ok_iff, ok_bind, pure_eq_ok, symbol_ok_iff, closedTerm_ok_iff, Except.ok.injEq,
      Prod.mk.injEq, Prod.exists] at ok
    obtain ⟨type, _, ⟨xs, ahead, ⟨first⟩⟩, _, equals, t, _, ⟨ys, ahead', ⟨second⟩⟩, rfl, rfl⟩ := ok
    obtain ⟨front, same, rfl⟩ :=
      (ahead_of_atSymbol colon).cons (ahead.append (equals.cons ahead'))
    exact ⟨_, .annotated plain same first second, rfl⟩
  · simp only [bind_ok_iff, ok_bind, pure_eq_ok, symbol_ok_iff, closedTerm_ok_iff, Except.ok.injEq,
      Prod.mk.injEq, Prod.exists] at ok
    obtain ⟨_, equals, t, _, ⟨xs, ahead, ⟨inner⟩⟩, rfl, rfl⟩ := ok
    obtain ⟨front, same, rfl⟩ := equals.cons ahead
    exact ⟨_, .plain plain same inner, rfl⟩

/-- A definition is read exactly where one is written. -/
theorem definition_ok_iff {definition : Definition} :
    Parser.definition ar stop tokens = .ok (definition, rest) ↔
      ∃ front, Written ar front definition ∧ tokens = front ++ rest := by
  constructor
  · intro ok
    obtain ⟨⟨name, more⟩, named, -⟩ := bind_ok_iff.1 ok
    obtain ⟨plain, self⟩ := name_ok_iff.1 named
    obtain ⟨pos, _, rfl, -⟩ := Ahead.cons_iff.1 self
    exact written_of_ok plain ok
  · rintro ⟨front, written, rfl⟩
    cases written with
    | @plain _ _ tokens _ _ plain same inner =>
        have ahead : Ahead _ (tokens ++ rest) rest := ⟨tokens, same, rfl⟩
        simp only [Ahead.cons_iff] at ahead
        obtain ⟨_, _, first, ahead⟩ := ahead
        rw [List.cons_append, first]
        simp [Parser.definition, name_word plain, atSymbol, next,
          closedTerm_ok_iff.2 ⟨_, ahead, ⟨inner⟩⟩]
    | @annotated _ _ tokens _ _ _ _ plain same first second =>
        have ahead : Ahead _ (tokens ++ rest) rest := ⟨tokens, same, rfl⟩
        simp only [Ahead.cons_iff, Ahead.append_iff] at ahead
        obtain ⟨_, _, colon, _, ahead, _, _, rfl, ahead'⟩ := ahead
        rw [List.cons_append, colon]
        simp [Parser.definition, name_word plain, atSymbol, next,
          closedTerm_ok_iff.2 ⟨_, ahead, ⟨first⟩⟩, closedTerm_ok_iff.2 ⟨_, ahead', ⟨second⟩⟩]

/-- A definition takes at least one token. -/
theorem written_ne_nil {front : List Token} {definition : Definition}
    (written : Written ar front definition) : front ≠ [] := by
  cases written <;> simp

/-- Without tokens there are no definitions. -/
theorem splits_nil_iff {definitions : List Definition} :
    Splits ar [] definitions ↔ definitions = [] := by
  constructor
  · intro splits
    generalize same : [] = tokens at splits
    cases splits with
    | nil => rfl
    | cons first _ => exact absurd (List.append_eq_nil_iff.1 same.symm).1 (written_ne_nil first)
  · rintro rfl
    exact .nil

/-- Tokens split into the first definition and the others. -/
theorem splits_cons_iff {token : Token} {definitions : List Definition} :
    Splits ar (token :: tokens) definitions ↔ ∃ definition rest,
      (∃ front, Written ar front definition ∧ token :: tokens = front ++ rest) ∧
      ∃ more, Splits ar rest more ∧ definition :: more = definitions := by
  constructor
  · intro splits
    generalize same : token :: tokens = all at splits
    cases splits with
    | nil => cases same
    | cons first others => exact ⟨_, _, ⟨_, first, rfl⟩, _, others, rfl⟩
  · rintro ⟨definition, rest, ⟨front, first, same⟩, more, others, rfl⟩
    rw [same]
    exact .cons first others

/-- The reader of definitions finds those that the tokens are made of. -/
theorem definitions_ok_iff {fuel : Nat} (enough : tokens.length ≤ fuel)
    {definitions : List Definition} :
    Parser.definitions ar stop fuel tokens = .ok definitions ↔ Splits ar tokens definitions := by
  induction fuel generalizing tokens definitions with
  | zero =>
      obtain rfl := List.length_eq_zero_iff.1 (Nat.le_zero.1 enough)
      rw [Parser.definitions, splits_nil_iff, Except.ok.injEq, eq_comm]
  | succ fuel ih =>
      cases tokens with
      | nil => rw [Parser.definitions, splits_nil_iff, Except.ok.injEq, eq_comm]
      | cons token tokens =>
          have shorter {front rest : List Token} {first : Definition}
              (written : Written ar front first) (same : token :: tokens = front ++ rest) :
              rest.length ≤ fuel := by
            have length := congrArg List.length same
            have positive := List.length_pos_iff.2 (written_ne_nil written)
            rw [List.length_append] at length
            omega
          rw [splits_cons_iff]
          simp only [Parser.definitions, bind_ok_iff, definition_ok_iff, pure_eq_ok,
            Except.ok.injEq, Prod.exists]
          refine exists_congr fun first => exists_congr fun rest => and_congr_right fun read => ?_
          obtain ⟨front, written, same⟩ := read
          simp only [ih (shorter written same)]

end Parser

open Grammar

variable {ar : Arith} {file source : String}

/-- A source text is read as a term exactly if its tokens derive the term. -/
theorem parseTerm_ok_iff {t : Term} : parseTerm ar file source = .ok t ↔ ∃ tokens stop,
    tokenize file source = .ok (tokens, stop) ∧
      Nonempty (Derivation ar [] (tokens.map Token.lexeme) t) := by
  rw [parseTerm, mapError_eq_ok]
  simp only [Parser.bind_ok_iff, Prod.exists]
  refine exists_congr fun tokens => exists_congr fun stop => and_congr_right fun _ => ?_
  constructor
  · rintro ⟨t', rest, read, ok⟩
    obtain ⟨xs, ⟨front, rfl, rfl⟩, derivation⟩ := Parser.closedTerm_ok_iff.1 read
    cases rest with
    | nil =>
        cases ok
        rwa [List.append_nil]
    | cons token rest => cases ok
  · intro derivation
    refine ⟨t, [], Parser.closedTerm_ok_iff.2 ⟨_, ⟨tokens, rfl, ?_⟩, derivation⟩, rfl⟩
    exact (List.append_nil tokens).symm

/-- A source text is read as definitions exactly if its tokens are those of the definitions. -/
theorem parseFile_ok_iff {definitions : List Definition} :
    parseFile ar file source = .ok definitions ↔ ∃ tokens stop,
      tokenize file source = .ok (tokens, stop) ∧ Splits ar tokens definitions := by
  rw [parseFile, mapError_eq_ok]
  simp only [Parser.bind_ok_iff, Prod.exists]
  refine exists_congr fun tokens => exists_congr fun stop => and_congr_right fun _ => ?_
  exact Parser.definitions_ok_iff (Nat.le_refl _)

/-- Lexemes have at most one derivation in each scope. -/
theorem subsingleton_derivation (ar : Arith) (scope : List String) (lexemes : List Lexeme) :
    Subsingleton (Σ t, Derivation ar scope lexemes t) := by
  refine ⟨fun first second => ?_⟩
  obtain ⟨-, same, same_derivation, -⟩ := (unambiguous ar lexemes.length).term first.2 second.2
    (rfl : lexemes ++ [] = lexemes ++ []) (Nat.le_refl _)
  exact Sigma.ext same same_derivation

end BoxCalculus
