import BoxCalculus.Proofs.Grammar.Indices

/-!
# Parsing is what the grammar says

The grammar of the written form has exact sums: `#k` is the variable `k` plus the number of binders
around it, however large that is. A reader with machine words accepts the sources that have a
derivation, and unless a sum overflows it reads the term that they derive (`parsing_iff_grammar`).
Where a sum wraps around it reads something else (`wrapped_reading`).
-/

namespace BoxCalculus

open Grammar

namespace Grammar

variable {ar : Arith}

mutual

/-- What has a derivation with some sums has one with other sums. -/
theorem Derivation.other (ar' : Arith) : ∀ {scope : List String} {xs : List Lexeme} {t : Term},
    Derivation ar scope xs t → ∃ u, Nonempty (Derivation ar' scope xs u)
  | _, _, _, .univ => ⟨_, ⟨.univ⟩⟩
  | _, _, _, .free numeral small => ⟨_, ⟨.free numeral small⟩⟩
  | _, _, _, .bound plain innermost => ⟨_, ⟨.bound plain innermost⟩⟩
  | _, _, _, .reference plain free => ⟨_, ⟨.reference plain free⟩⟩
  | _, _, _, .pi plain first second => by
      obtain ⟨_, ⟨first⟩⟩ := first.other ar'
      obtain ⟨_, ⟨second⟩⟩ := second.other ar'
      exact ⟨_, ⟨.pi plain first second⟩⟩
  | _, _, _, .lam plain first second => by
      obtain ⟨_, ⟨first⟩⟩ := first.other ar'
      obtain ⟨_, ⟨second⟩⟩ := second.other ar'
      exact ⟨_, ⟨.lam plain first second⟩⟩
  | _, _, _, .bare plain inner => by
      obtain ⟨_, ⟨inner⟩⟩ := inner.other ar'
      exact ⟨_, ⟨.bare plain inner⟩⟩
  | _, _, _, .spine first others => by
      obtain ⟨_, ⟨first⟩⟩ := first.other ar'
      obtain ⟨_, ⟨others⟩⟩ := others.other ar'
      exact ⟨_, ⟨.spine first others⟩⟩
  | _, _, _, .sigma plain first second => by
      obtain ⟨_, ⟨first⟩⟩ := first.other ar'
      obtain ⟨_, ⟨second⟩⟩ := second.other ar'
      exact ⟨_, ⟨.sigma plain first second⟩⟩
  | _, _, _, .pair first second third => by
      obtain ⟨_, ⟨first⟩⟩ := first.other ar'
      obtain ⟨_, ⟨second⟩⟩ := second.other ar'
      obtain ⟨_, ⟨third⟩⟩ := third.other ar'
      exact ⟨_, ⟨.pair first second third⟩⟩
  | _, _, _, .split plain fst_plain snd_plain first second third => by
      obtain ⟨_, ⟨first⟩⟩ := first.other ar'
      obtain ⟨_, ⟨second⟩⟩ := second.other ar'
      obtain ⟨_, ⟨third⟩⟩ := third.other ar'
      exact ⟨_, ⟨.split plain fst_plain snd_plain first second third⟩⟩
  | _, _, _, .data plain nodup first block => by
      obtain ⟨_, ⟨first⟩⟩ := first.other ar'
      obtain ⟨_, ⟨block⟩, labels⟩ := block.other ar'
      exact ⟨_, ⟨.data plain (labels ▸ nodup) first block⟩⟩
  | _, _, _, .ctr plain inner => by
      obtain ⟨_, ⟨inner⟩⟩ := inner.other ar'
      exact ⟨_, ⟨.ctr plain inner⟩⟩
  | _, _, _, .caseOf plain first second third block => by
      obtain ⟨_, ⟨first⟩⟩ := first.other ar'
      obtain ⟨_, ⟨second⟩⟩ := second.other ar'
      obtain ⟨_, ⟨third⟩⟩ := third.other ar'
      obtain ⟨_, ⟨block⟩, -⟩ := block.other ar'
      exact ⟨_, ⟨.caseOf plain first second third block⟩⟩
  | _, _, _, .dup plain first second => by
      obtain ⟨_, ⟨first⟩⟩ := first.other ar'
      obtain ⟨_, ⟨second⟩⟩ := second.other ar'
      exact ⟨_, ⟨.dup plain first second⟩⟩
  | _, _, _, .letIn plain first second => by
      obtain ⟨_, ⟨first⟩⟩ := first.other ar'
      obtain ⟨_, ⟨second⟩⟩ := second.other ar'
      exact ⟨_, ⟨.letIn plain first second⟩⟩
  | _, _, _, .box inner => by
      obtain ⟨_, ⟨inner⟩⟩ := inner.other ar'
      exact ⟨_, ⟨.box inner⟩⟩
  | _, _, _, .boxType inner => by
      obtain ⟨_, ⟨inner⟩⟩ := inner.other ar'
      exact ⟨_, ⟨.boxType inner⟩⟩

/-- The same of arguments. -/
theorem Arguments.other (ar' : Arith) : ∀ {scope : List String} {xs : List Lexeme}
    {args : List (Bool × Term)}, Arguments ar scope xs args →
    ∃ us, Nonempty (Arguments ar' scope xs us)
  | _, _, _, .nil => ⟨_, ⟨.nil⟩⟩
  | _, _, _, .cons first others => by
      obtain ⟨_, ⟨first⟩⟩ := first.other ar'
      obtain ⟨_, ⟨others⟩⟩ := others.other ar'
      exact ⟨_, ⟨.cons first others⟩⟩

/-- The same of blocks, whose labels stay. -/
theorem Block.other (ar' : Arith) : ∀ {separator : String} {scope : List String}
    {xs : List Lexeme} {entries : Entries}, Block ar separator scope xs entries →
    ∃ others, Nonempty (Block ar' separator scope xs others) ∧ entries.labels = others.labels
  | _, _, _, _, .nil => ⟨_, ⟨.nil⟩, rfl⟩
  | _, _, _, _, .last plain first => by
      obtain ⟨_, ⟨first⟩⟩ := first.other ar'
      exact ⟨_, ⟨.last plain first⟩, rfl⟩
  | _, _, _, _, .cons plain first others => by
      obtain ⟨_, ⟨first⟩⟩ := first.other ar'
      obtain ⟨_, ⟨others⟩, labels⟩ := others.other ar'
      exact ⟨_, ⟨.cons plain first others⟩, congrArg (List.cons _) labels⟩

end

/-- Tokens of definitions with some sums are tokens of definitions with other sums. -/
theorem Splits.other (ar' : Arith) {tokens : List Token} {definitions : List Definition}
    (splits : Splits ar tokens definitions) : ∃ others, Splits ar' tokens others := by
  induction splits with
  | nil => exact ⟨_, .nil⟩
  | cons first _ ih =>
      obtain ⟨others, splits⟩ := ih
      cases first with
      | plain plain same inner =>
          obtain ⟨_, ⟨inner⟩⟩ := inner.other ar'
          exact ⟨_, .cons (.plain plain same inner) splits⟩
      | annotated plain same first second =>
          obtain ⟨_, ⟨first⟩⟩ := first.other ar'
          obtain ⟨_, ⟨second⟩⟩ := second.other ar'
          exact ⟨_, .cons (.annotated plain same first second) splits⟩

/-- The tokens of the source text derive the term. -/
def Derives (file source : String) (t : Term) : Prop :=
  ∃ tokens stop, tokenize file source = .ok (tokens, stop) ∧
    Nonempty (Derivation .exact [] (tokens.map Token.lexeme) t)

/-- The tokens of the source text are those of the definitions, one after the other. -/
def DerivesAll (file source : String) (definitions : List Definition) : Prop :=
  ∃ tokens stop, tokenize file source = .ok (tokens, stop) ∧ Splits .exact tokens definitions

end Grammar

variable {file source : String}

/-- A source text is read as some term exactly if it derives one. -/
theorem parseTerm_accepts_iff :
    (∃ t, parseTerm .word file source = .ok t) ↔ ∃ t, Derives file source t := by
  constructor
  · rintro ⟨t, ok⟩
    obtain ⟨tokens, stop, read, ⟨derivation⟩⟩ := parseTerm_ok_iff.1 ok
    obtain ⟨u, exactly⟩ := derivation.other .exact
    exact ⟨u, tokens, stop, read, exactly⟩
  · rintro ⟨u, tokens, stop, read, ⟨derivation⟩⟩
    obtain ⟨t, wrapping⟩ := derivation.other .word
    exact ⟨t, parseTerm_ok_iff.2 ⟨tokens, stop, read, wrapping⟩⟩

/-- A source text is read as some definitions exactly if its tokens are those of definitions. -/
theorem parseFile_accepts_iff :
    (∃ definitions, parseFile .word file source = .ok definitions) ↔
      ∃ definitions, DerivesAll file source definitions := by
  constructor
  · rintro ⟨definitions, ok⟩
    obtain ⟨tokens, stop, read, splits⟩ := parseFile_ok_iff.1 ok
    obtain ⟨others, exactly⟩ := splits.other .exact
    exact ⟨others, tokens, stop, read, exactly⟩
  · rintro ⟨others, tokens, stop, read, splits⟩
    obtain ⟨definitions, wrapping⟩ := splits.other .word
    exact ⟨definitions, parseFile_ok_iff.2 ⟨tokens, stop, read, wrapping⟩⟩

/-- A source text is read exactly if it has a derivation, and lexemes have at most one derivation in
each scope. Unless a sum overflows, a source text is read as a term exactly if its tokens derive the
term, and as definitions exactly if its tokens are those of the definitions. A sum has overflowed
exactly if there is a negative index in what is read. -/
theorem parsing_iff_grammar (file source : String) :
    ((∃ t, parseTerm .word file source = .ok t) ↔ ∃ t, Derives file source t) ∧
    (OverflowFree (fun ar => parseTerm ar file source) →
      ∀ t, parseTerm .word file source = .ok t ↔ Derives file source t) ∧
    (∀ scope lexemes, Subsingleton (Σ t, Derivation .exact scope lexemes t)) ∧
    ((∃ definitions, parseFile .word file source = .ok definitions) ↔
      ∃ definitions, DerivesAll file source definitions) ∧
    (OverflowFree (fun ar => parseFile ar file source) → ∀ definitions,
      parseFile .word file source = .ok definitions ↔ DerivesAll file source definitions) ∧
    (source.length < 2 ^ 63 →
      (∀ t, parseTerm .word file source = .ok t →
        (Derives file source t ↔ t.nonneg = true)) ∧
      ∀ definitions, parseFile .word file source = .ok definitions →
        (DerivesAll file source definitions ↔
          ∀ definition ∈ definitions, definition.nonneg = true)) := by
  refine ⟨parseTerm_accepts_iff, ?_, subsingleton_derivation .exact, parseFile_accepts_iff, ?_, ?_⟩
  · intro safe t
    rw [show parseTerm .word file source = parseTerm .exact file source from safe]
    exact parseTerm_ok_iff
  · intro safe definitions
    rw [show parseFile .word file source = parseFile .exact file source from safe]
    exact parseFile_ok_iff
  · intro small
    constructor
    · intro t ok
      rw [nonneg_iff_parseTerm_exact small ok]
      exact parseTerm_ok_iff.symm
    · intro definitions ok
      rw [nonneg_iff_parseFile_exact small ok]
      exact parseFile_ok_iff.symm

/-- A function of a free variable, applied to an argument. -/
def appliedTo (i : Int) (arg : Term) : Term :=
  .app false (.lam false "x" .hole (.app false (.var 0) (.var i))) arg

/-- A local definition that is put in place below a binder, with a free variable that is raised by
it. -/
theorem parsing_iff_grammar_raised :
    OverflowFree (fun ar =>
      parseTerm ar "" "let f = [x] (x #0) in dup y = (f Type) in box (f y)") ∧
    Derives "" "let f = [x] (x #0) in dup y = (f Type) in box (f y)"
      (.dup "y" (appliedTo 1 .univ) (.box (appliedTo 2 (.var 0)))) := by
  have wrapping : parseTerm .word "" "let f = [x] (x #0) in dup y = (f Type) in box (f y)" =
      .ok (.dup "y" (appliedTo 1 .univ) (.box (appliedTo 2 (.var 0)))) := rfl
  have exactly : parseTerm .exact "" "let f = [x] (x #0) in dup y = (f Type) in box (f y)" =
      .ok (.dup "y" (appliedTo 1 .univ) (.box (appliedTo 2 (.var 0)))) := rfl
  have safe : OverflowFree fun ar =>
      parseTerm ar "" "let f = [x] (x #0) in dup y = (f Type) in box (f y)" :=
    wrapping.trans exactly.symm
  exact ⟨safe, ((parsing_iff_grammar _ _).2.1 safe _).1 wrapping⟩

/-- The largest numeral that is a word, in the scope of a local definition. It derives the variable
that the numeral is for, since the local definition goes away, and something else is read. -/
theorem wrapped_reading :
    Derives "" "let x = Type in #9223372036854775807" (.var 0x7fff_ffff_ffff_ffff) ∧
      parseTerm .word "" "let x = Type in #9223372036854775807" =
        .ok (.var (-0x8000_0000_0000_0000)) ∧
      ¬ Derives "" "let x = Type in #9223372036854775807" (.var (-0x8000_0000_0000_0000)) := by
  have exactly : parseTerm .exact "" "let x = Type in #9223372036854775807" =
      .ok (.var 0x7fff_ffff_ffff_ffff) := calc
    parseTerm .exact "" "let x = Type in #9223372036854775807" =
        .ok ((Term.var (Arith.exact.add 0x7fff_ffff_ffff_ffff (1 : Nat))).subst .exact .univ 0) :=
      rfl
    _ = .ok (.var 0x7fff_ffff_ffff_ffff) := congrArg Except.ok rfl
  refine ⟨parseTerm_ok_iff.1 exactly, rfl, fun derives => ?_⟩
  have other := parseTerm_ok_iff.2 derives
  rw [exactly] at other
  cases other

end BoxCalculus
