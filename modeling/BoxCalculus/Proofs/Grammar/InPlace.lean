import BoxCalculus.Proofs.Grammar.Mirroring

/-!
# The readers in place do what the parser does

If the parts of a form are read in place as by the parser, so is the form. So the readers in place mirror
the readers of the parser if those have fuel, and these have time, for all tokens that are left
(`simulated`).
-/

namespace BoxCalculus.InPlace

/-- The reader reads terms as the parser does with this much fuel, from a position of the row on. -/
def ReadsTerms (ar : Arith) (row : Row) (fuel : Nat) (inner : InPlace Term) (low : Nat) : Prop :=
  ∀ {scope : List String} {i : Nat}, low ≤ i → i ≤ row.ahead.length →
    Mirrors row (i + 1) inner scope i
      (Parser.term ar row.stop fuel scope.reverse (row.ahead.drop i))

namespace ReadsTerms

variable {ar : Arith} {row : Row} {fuel low : Nat} {inner : InPlace Term}
  (reads : ReadsTerms ar row fuel inner low) {scope : List String}

include reads

/-- A part with one more name in scope. -/
theorem under (self : String) {i : Nat} (low_le : low ≤ i) (le : i ≤ row.ahead.length) :
    Mirrors row (i + 1) (under inner [self]) scope i
      (Parser.term ar row.stop fuel (self :: scope.reverse) (row.ahead.drop i)) := by
  have part : Mirrors row (i + 1) inner (scope ++ [self]) i _ := reads low_le le
  rw [List.reverse_append] at part
  exact part.under

/-- A part with two more names in scope. -/
theorem under₂ (fst snd : String) {i : Nat} (low_le : low ≤ i) (le : i ≤ row.ahead.length) :
    Mirrors row (i + 1) (InPlace.under inner [fst, snd]) scope i
      (Parser.term ar row.stop fuel (snd :: fst :: scope.reverse) (row.ahead.drop i)) := by
  have part : Mirrors row (i + 1) inner (scope ++ [fst, snd]) i _ := reads low_le le
  rw [List.reverse_append] at part
  exact part.under

end ReadsTerms

section Forms

variable {ar : Arith} {row : Row} {fuel i : Nat} {inner : InPlace Term}
  (reads : ReadsTerms ar row fuel inner (i + 1)) {scope : List String}

include reads

/-- An operator and its operand are read as by the parser. -/
theorem mirrors_operator (form : Term → Term) (inside : i < row.ahead.length) :
    Mirrors row (i + 1) (operator row.tokens inner form) scope i (do
      let (part, rest) ← Parser.term ar row.stop fuel scope.reverse (row.ahead.drop (i + 1))
      pure (form part, rest)) := by
  refine .advance inside ?_
  refine (reads (Nat.le_refl _) inside).bind (by omega) fun part j past le => ?_
  exact .pure le (form part)

/-- A quantifier is read as by the parser. -/
theorem mirrors_quantifier (close : String) (form : Bool → String → Term → Term → Term)
    (inside : i < row.ahead.length) :
    Mirrors row (i + 1) (quantifier row.tokens inner close form) scope i (do
      let (erased, rest) := Parser.erasure (row.ahead.drop (i + 1))
      let (self, rest) ← Parser.name row.stop rest
      let rest ← Parser.symbol row.stop ":" rest
      let (first, rest) ← Parser.term ar row.stop fuel scope.reverse rest
      let rest ← Parser.symbol row.stop close rest
      let (second, rest) ← Parser.term ar row.stop fuel (self :: scope.reverse) rest
      pure (form erased self first second, rest)) := by
  refine .advance inside ?_
  refine .erasure inside fun erased j₁ past le mark => ?_
  rw [mark]
  refine (Mirrors.name le).bind (by omega) fun self j₂ past le => ?_
  refine (Mirrors.symbol ":" le).andThen (by omega) fun j₃ past le => ?_
  refine (reads (by omega) le).bind (by omega) fun first j₄ past le => ?_
  refine (Mirrors.symbol close le).andThen (by omega) fun j₅ past le => ?_
  refine (reads.under self (by omega) le).bind (by omega) fun second j₆ past le => ?_
  exact .pure le _

/-- A binding and its body are read as by the parser. -/
theorem mirrors_binding (form : String → Term → Term → Term) (inside : i < row.ahead.length) :
    Mirrors row (i + 1) (binding row.tokens inner form) scope i (do
      let (self, rest) ← Parser.name row.stop (row.ahead.drop (i + 1))
      let rest ← Parser.symbol row.stop "=" rest
      let (value, rest) ← Parser.term ar row.stop fuel scope.reverse rest
      let rest ← Parser.keyword row.stop "in" rest
      let (body, rest) ← Parser.term ar row.stop fuel (self :: scope.reverse) rest
      pure (form self value body, rest)) := by
  refine .advance inside ?_
  refine (Mirrors.name inside).bind (by omega) fun self j₁ past le => ?_
  refine (Mirrors.symbol "=" le).andThen (by omega) fun j₂ past le => ?_
  refine (reads (by omega) le).bind (by omega) fun value j₃ past le => ?_
  refine (Mirrors.keyword "in" le).andThen (by omega) fun j₄ past le => ?_
  refine (reads.under self (by omega) le).bind (by omega) fun body j₅ past le => ?_
  exact .pure le _

variable {pos : Pos} {rest : List Token}

/-- A lambda, with a domain or without, is read as by the parser. -/
theorem mirrors_lam (here : row.ahead.drop i = ⟨.symbol "[", pos⟩ :: rest) :
    Mirrors row (i + 1) (lam row.tokens inner) scope i
      (Parser.term ar row.stop (fuel + 1) scope.reverse (⟨.symbol "[", pos⟩ :: rest)) := by
  have inside := row.lt_length_of_drop here
  rw [Parser.term, ← row.drop_succ_of_drop here]
  refine .advance inside ?_
  refine .erasure inside fun erased j₁ past le mark => ?_
  rw [mark]
  refine (Mirrors.name le).bind (by omega) fun self j₂ past le => ?_
  -- What follows the domain is the same if there is none.
  have body (dom : Term) (j : Nat) (past' : j₂ ≤ j) (le : j ≤ row.ahead.length) :
      Mirrors row j (do
        symbol row.tokens "]"
        let body ← under inner [self]
        pure (Term.lam erased self dom body)) scope j
      (Parser.symbol row.stop "]" (row.ahead.drop j) >>= fun rest =>
        Parser.term ar row.stop fuel (self :: scope.reverse) rest >>= fun found =>
          pure (Term.lam erased self dom found.1, found.2)) := by
    refine (Mirrors.symbol "]" le).andThen (by omega) fun j₃ past le => ?_
    refine (reads.under self (by omega) le).bind (by omega) fun body j₄ past le => ?_
    exact .pure le _
  refine .ite le (fun inside => ?_) (body .hole j₂ (Nat.le_refl _) le)
  rw [List.tail_drop]
  refine (reads (by omega) inside).bind (by omega) fun dom j₃ past le => ?_
  exact body dom j₃ (by omega) le

/-- A constructor and its declaration are read as by the parser. -/
theorem mirrors_ctr (here : row.ahead.drop i = ⟨.symbol ".", pos⟩ :: rest) :
    Mirrors row (i + 1) (ctr row.tokens inner) scope i
      (Parser.term ar row.stop (fuel + 1) scope.reverse (⟨.symbol ".", pos⟩ :: rest)) := by
  have inside := row.lt_length_of_drop here
  rw [Parser.term, ← row.drop_succ_of_drop here]
  refine .advance inside ?_
  refine (Mirrors.name inside).bind (by omega) fun label j₁ past le => ?_
  refine (reads (by omega) le).bind (by omega) fun type j₂ past le => ?_
  exact .pure le _

/-- A pair is read as by the parser. -/
theorem mirrors_pair (here : row.ahead.drop i = ⟨.word "pair", pos⟩ :: rest) :
    Mirrors row (i + 1) (pair row.tokens inner) scope i
      (Parser.term ar row.stop (fuel + 1) scope.reverse (⟨.word "pair", pos⟩ :: rest)) := by
  have inside := row.lt_length_of_drop here
  rw [Parser.term, ← row.drop_succ_of_drop here]
  refine .advance inside ?_
  refine .erasure inside fun erased j₁ past le mark => ?_
  rw [mark]
  refine (reads (by omega) le).bind (by omega) fun type j₂ past le => ?_
  refine (reads (by omega) le).bind (by omega) fun fst j₃ past le => ?_
  refine (reads (by omega) le).bind (by omega) fun snd j₄ past le => ?_
  exact .pure le _

/-- A split is read as by the parser, its body below two names. -/
theorem mirrors_split (here : row.ahead.drop i = ⟨.word "split", pos⟩ :: rest) :
    Mirrors row (i + 1) (split row.tokens inner) scope i
      (Parser.term ar row.stop (fuel + 1) scope.reverse (⟨.word "split", pos⟩ :: rest)) := by
  have inside := row.lt_length_of_drop here
  rw [Parser.term, ← row.drop_succ_of_drop here]
  refine .advance inside ?_
  refine .erasure inside fun erased j₁ past le mark => ?_
  rw [mark]
  refine (reads (by omega) le).bind (by omega) fun scrutinee j₂ past le => ?_
  refine (Mirrors.keyword "as" le).andThen (by omega) fun j₃ past le => ?_
  refine (Mirrors.name le).bind (by omega) fun self j₄ past le => ?_
  refine (Mirrors.keyword "return" le).andThen (by omega) fun j₅ past le => ?_
  refine (reads.under self (by omega) le).bind (by omega) fun motive j₆ past le => ?_
  refine (Mirrors.keyword "with" le).andThen (by omega) fun j₇ past le => ?_
  refine (Mirrors.name le).bind (by omega) fun fstName j₈ past le => ?_
  refine (Mirrors.name le).bind (by omega) fun sndName j₉ past le => ?_
  refine (Mirrors.symbol "=>" le).andThen (by omega) fun j₁₀ past le => ?_
  refine (reads.under₂ fstName sndName (by omega) le).bind (by omega) fun body j₁₁ past le => ?_
  exact .pure le _

/-- An application is read as by the parser, if its further arguments are. -/
theorem mirrors_app {arguments : Term → InPlace Term}
    (others : ∀ {fn : Term} {j : Nat}, i + 1 < j → j ≤ row.ahead.length →
      Mirrors row j (arguments fn) scope j
        (Parser.arguments ar row.stop fuel scope.reverse fn (row.ahead.drop j)))
    (here : row.ahead.drop i = ⟨.symbol "(", pos⟩ :: rest) :
    Mirrors row (i + 1) (app row.tokens inner arguments) scope i
      (Parser.term ar row.stop (fuel + 1) scope.reverse (⟨.symbol "(", pos⟩ :: rest)) := by
  have inside := row.lt_length_of_drop here
  rw [Parser.term, ← row.drop_succ_of_drop here]
  refine .advance inside ?_
  refine (reads (by omega) inside).bind (by omega) fun fn j₁ past le => ?_
  exact others (by omega) le

/-- A declaration is read as by the parser, if its constructors are. -/
theorem mirrors_data {constructors : String → InPlace Entries}
    (entries : ∀ {self : String} {j : Nat}, i < j → j ≤ row.ahead.length →
      Mirrors row j (constructors self) scope j
        (Parser.constructors ar row.stop fuel (self :: scope.reverse) [] (row.ahead.drop j)))
    (here : row.ahead.drop i = ⟨.word "data", pos⟩ :: rest) :
    Mirrors row (i + 1) (data row.tokens inner constructors) scope i
      (Parser.term ar row.stop (fuel + 1) scope.reverse (⟨.word "data", pos⟩ :: rest)) := by
  have inside := row.lt_length_of_drop here
  rw [Parser.term, ← row.drop_succ_of_drop here]
  refine .advance inside ?_
  refine (Mirrors.name inside).bind (by omega) fun self j₁ past le => ?_
  refine (Mirrors.symbol ":" le).andThen (by omega) fun j₂ past le => ?_
  refine (reads (by omega) le).bind (by omega) fun type j₃ past le => ?_
  refine (Mirrors.symbol "\x7b" le).andThen (by omega) fun j₄ past le => ?_
  refine (entries (by omega) le).bind (by omega) fun ctrs j₅ past le => ?_
  exact .pure le _

/-- A case analysis is read as by the parser, if its branches are. -/
theorem mirrors_caseOf {branches : InPlace Entries}
    (entries : ∀ {j : Nat}, i < j → j ≤ row.ahead.length →
      Mirrors row j branches scope j
        (Parser.branches ar row.stop fuel scope.reverse (row.ahead.drop j)))
    (here : row.ahead.drop i = ⟨.word "case", pos⟩ :: rest) :
    Mirrors row (i + 1) (caseOf row.tokens inner branches) scope i
      (Parser.term ar row.stop (fuel + 1) scope.reverse (⟨.word "case", pos⟩ :: rest)) := by
  have inside := row.lt_length_of_drop here
  rw [Parser.term, ← row.drop_succ_of_drop here]
  refine .advance inside ?_
  refine (reads (by omega) inside).bind (by omega) fun value j₁ past le => ?_
  refine (Mirrors.keyword "of" le).andThen (by omega) fun j₂ past le => ?_
  refine (reads (by omega) le).bind (by omega) fun type j₃ past le => ?_
  refine (Mirrors.keyword "as" le).andThen (by omega) fun j₄ past le => ?_
  refine (Mirrors.name le).bind (by omega) fun self j₅ past le => ?_
  refine (Mirrors.keyword "return" le).andThen (by omega) fun j₆ past le => ?_
  refine (reads.under self (by omega) le).bind (by omega) fun motive j₇ past le => ?_
  refine (Mirrors.symbol "\x7b" le).andThen (by omega) fun j₈ past le => ?_
  refine (entries (by omega) le).bind (by omega) fun entries j₉ past le => ?_
  exact .pure le _

end Forms

/-- With this much fuel the parser does what the readers in place do in this time. -/
structure Simulated (ar : Arith) (row : Row) (fuel clock : Nat) : Prop where
  of_term : ∀ {scope i}, i ≤ row.ahead.length → 2 * (row.ahead.length - i) + 1 ≤ min fuel clock →
    Mirrors row (i + 1) (term ar row.tokens clock) scope i
      (Parser.term ar row.stop fuel scope.reverse (row.ahead.drop i))
  of_arguments : ∀ {scope fn i}, i ≤ row.ahead.length →
    2 * (row.ahead.length - i) + 2 ≤ min fuel clock →
    Mirrors row i (arguments ar row.tokens clock fn) scope i
      (Parser.arguments ar row.stop fuel scope.reverse fn (row.ahead.drop i))
  of_constructors : ∀ {scope self seen i}, i ≤ row.ahead.length →
    2 * (row.ahead.length - i) + 1 ≤ min fuel clock →
    Mirrors row i (constructors ar row.tokens clock seen self) scope i
      (Parser.constructors ar row.stop fuel (self :: scope.reverse) seen (row.ahead.drop i))
  of_branches : ∀ {scope i}, i ≤ row.ahead.length →
    2 * (row.ahead.length - i) + 1 ≤ min fuel clock →
    Mirrors row i (branches ar row.tokens clock) scope i
      (Parser.branches ar row.stop fuel scope.reverse (row.ahead.drop i))

namespace Simulated

variable {ar : Arith} {row : Row} {fuel clock : Nat} (sim : Simulated ar row fuel clock)
  {scope : List String} {i : Nat}

include sim

/-- Terms are read as by the parser if there is fuel and time for the tokens that are left. -/
theorem reads {low : Nat} (enough : 2 * (row.ahead.length - low) + 1 ≤ min fuel clock) :
    ReadsTerms ar row fuel (term ar row.tokens clock) low :=
  fun low_le le => sim.of_term le (by omega)

/-- A term is read as by the parser, whichever token it starts with. -/
theorem term_succ (le : i ≤ row.ahead.length)
    (enough : 2 * (row.ahead.length - i) ≤ min fuel clock) :
    Mirrors row (i + 1) (term ar row.tokens (clock + 1)) scope i
      (Parser.term ar row.stop (fuel + 1) scope.reverse (row.ahead.drop i)) := by
  have stuck : Mirrors row (i + 1) (failure row.tokens .unexpected : InPlace Term) scope i
      (Parser.failure row.stop (row.ahead.drop i) .unexpected) := .failure le .unexpected
  rw [term]
  refine .peek le (Nat.le_succ i) ?_
  cases here : row.ahead.drop i with
  | nil =>
      rw [here] at stuck
      exact stuck
  | cons token rest =>
      rw [here] at stuck
      have inside := row.lt_length_of_drop here
      have next := row.drop_succ_of_drop here
      have reads : ReadsTerms ar row fuel (term ar row.tokens clock) (i + 1) :=
        sim.reads (by omega)
      obtain ⟨lexeme, pos⟩ := token
      cases lexeme with
      | eof => exact stuck
      | free digits =>
          rw [Parser.term, ← next]
          refine .advance inside ?_
          cases readIndex? digits with
          | some k =>
              refine .found (Nat.le_refl _) inside fun _ => ?_
              rw [List.length_reverse]
              rfl
          | none => exact .failed fun _ => ⟨i + 1, inside, _, rfl, fun _ => rfl⟩
      | word text =>
          dsimp only [Parser.next]
          split
          · rw [Parser.term, ← next]
            exact .advance inside (.pure inside Term.univ)
          · rw [Parser.term, ← next]
            exact mirrors_operator reads .boxType inside
          · rw [Parser.term, ← next]
            exact mirrors_operator reads .box inside
          · exact mirrors_pair reads here
          · exact mirrors_split reads here
          · exact mirrors_data reads (fun lt le => sim.of_constructors le (by omega)) here
          · exact mirrors_caseOf reads (fun lt le => sim.of_branches le (by omega)) here
          · rw [Parser.term, ← next]
            exact mirrors_binding reads .dup inside
          · rw [Parser.term, ← next]
            exact mirrors_binding reads _ inside
          · rw [Parser.term]
            split
            · exact stuck
            · rw [← next]
              refine .advance inside (.found (Nat.le_refl _) inside fun _ => ?_)
              rw [← resolve_length]
              rfl
            all_goals assumption
      | symbol text =>
          dsimp only [Parser.next]
          split
          · rw [Parser.term, ← next]
            exact mirrors_quantifier reads _ .pi inside
          · exact mirrors_lam reads here
          · exact mirrors_app reads (fun lt le => sim.of_arguments le (by omega)) here
          · rw [Parser.term, ← next]
            exact mirrors_quantifier reads _ .sigma inside
          · exact mirrors_ctr reads here
          · rw [Parser.term]
            exact stuck
            all_goals assumption

omit sim in
/-- No term starts at the end of the source. -/
theorem term_eof (ar : Arith) (stop : Pos) (fuel : Nat) (scope : List String) (pos : Pos)
    (rest : List Token) :
    Parser.term ar stop fuel scope (⟨.eof, pos⟩ :: rest) =
      Parser.failure stop (⟨.eof, pos⟩ :: rest) .unexpected := by
  cases fuel <;> rfl

/-- Arguments are read as by the parser, up to the closing parenthesis. -/
theorem arguments_succ {fn : Term} (le : i ≤ row.ahead.length)
    (enough : 2 * (row.ahead.length - i) + 1 ≤ min fuel clock) :
    Mirrors row i (arguments ar row.tokens (clock + 1) fn) scope i
      (Parser.arguments ar row.stop (fuel + 1) scope.reverse fn (row.ahead.drop i)) := by
  rw [arguments, Parser.arguments]
  refine .ite le (fun inside => ?_) ?_
  · rw [List.tail_drop]
    exact .pure inside fn
  · refine .comes le (Nat.le_refl i) ?_
    by_cases ends : (Parser.next row.stop (row.ahead.drop i)).lexeme = .eof
    · rw [decide_eq_true ends, if_pos rfl]
      cases more : row.ahead.drop i with
      | nil =>
          rw [List.isEmpty_nil, if_pos rfl, ← more]
          exact .failure le _
      | cons token rest =>
          -- An end inside of the row is noticed one step later by the parser.
          obtain ⟨lexeme, pos⟩ := token
          rw [more] at ends
          obtain rfl : lexeme = .eof := ends
          have unmarked : Parser.erasure (⟨.eof, pos⟩ :: rest) = (false, ⟨.eof, pos⟩ :: rest) := rfl
          rw [List.isEmpty_cons, if_neg Bool.false_ne_true, unmarked]
          dsimp only
          rw [term_eof]
          have member : ⟨.eof, pos⟩ ∈ row.ahead := List.mem_of_mem_drop (more ▸ List.mem_cons_self)
          exact .failed fun ended => ⟨i, le, _, runFrom_bind_ok (row.runFrom_peek (.inr ended) le),
            fun none => absurd rfl (none _ member)⟩
    · rw [decide_eq_false ends, if_neg Bool.false_ne_true]
      cases more : row.ahead.drop i with
      | nil =>
          rw [more] at ends
          exact absurd rfl ends
      | cons token rest =>
          rw [List.isEmpty_cons, if_neg Bool.false_ne_true, ← more]
          refine .erasure le fun erased j₁ past le mark => ?_
          rw [mark]
          refine (sim.of_term le (by omega)).bind (by omega) fun arg j₂ past le => ?_
          exact sim.of_arguments le (by omega)

/-- Constructors are read as by the parser, up to the closing brace. -/
theorem constructors_succ {self : String} {seen : List String} (le : i ≤ row.ahead.length)
    (enough : 2 * (row.ahead.length - i) ≤ min fuel clock) :
    Mirrors row i (constructors ar row.tokens (clock + 1) seen self) scope i
      (Parser.constructors ar row.stop (fuel + 1) (self :: scope.reverse) seen
        (row.ahead.drop i)) := by
  rw [constructors, Parser.constructors]
  refine .ite le (fun inside => ?_) ?_
  · rw [List.tail_drop]
    exact .pure inside Entries.nil
  · refine .peek le (Nat.le_refl i) ?_
    refine (Mirrors.name le).bind (by omega) fun label j₁ past le => ?_
    dsimp only
    split
    · exact .failed fun _ => ⟨j₁, le, _, rfl, fun _ => rfl⟩
    · refine (Mirrors.symbol ":" le).andThen (by omega) fun j₂ past le => ?_
      have reads : ReadsTerms ar row fuel (term ar row.tokens clock) (i + 1) :=
        sim.reads (by omega)
      refine (reads.under self (by omega) le).bind (by omega) fun type j₃ past le => ?_
      refine .separator le (fun inside => ?_) fun last => ?_
      · rw [List.tail_drop]
        refine (sim.of_constructors inside (by omega)).bind (by omega) fun more j₄ past le => ?_
        exact .pure le _
      · have inside := row.lt_length_of_atSymbol last
        obtain ⟨clock, rfl⟩ : ∃ less, clock = less + 1 := ⟨clock - 1, by omega⟩
        rw [List.tail_drop, constructors]
        exact .found (Nat.le_succ j₃) inside fun clear =>
          runFrom_bind_ok (row.runFrom_brace last clear)

/-- Branches are read as by the parser, up to the closing brace. -/
theorem branches_succ (le : i ≤ row.ahead.length)
    (enough : 2 * (row.ahead.length - i) ≤ min fuel clock) :
    Mirrors row i (branches ar row.tokens (clock + 1)) scope i
      (Parser.branches ar row.stop (fuel + 1) scope.reverse (row.ahead.drop i)) := by
  rw [branches, Parser.branches]
  refine .ite le (fun inside => ?_) ?_
  · rw [List.tail_drop]
    exact .pure inside Entries.nil
  · refine (Mirrors.name le).bind (by omega) fun label j₁ past le => ?_
    refine (Mirrors.symbol "=>" le).andThen (by omega) fun j₂ past le => ?_
    refine (sim.of_term le (by omega)).bind (by omega) fun body j₃ past le => ?_
    refine .separator le (fun inside => ?_) fun last => ?_
    · rw [List.tail_drop]
      refine (sim.of_branches inside (by omega)).bind (by omega) fun more j₄ past le => ?_
      exact .pure le _
    · have inside := row.lt_length_of_atSymbol last
      obtain ⟨clock, rfl⟩ : ∃ less, clock = less + 1 := ⟨clock - 1, by omega⟩
      rw [List.tail_drop, branches]
      exact .found (Nat.le_succ j₃) inside fun clear =>
        runFrom_bind_ok (row.runFrom_brace last clear)

end Simulated

/-- The readers in place do what the parser does, with as much fuel and as much time as there is. -/
theorem simulated (ar : Arith) (row : Row) (fuel clock : Nat) : Simulated ar row fuel clock := by
  induction fuel generalizing clock with
  | zero =>
      refine ⟨?_, ?_, ?_, ?_⟩
      all_goals intros; omega
  | succ fuel ih =>
      cases clock with
      | zero =>
          refine ⟨?_, ?_, ?_, ?_⟩
          all_goals intros; omega
      | succ clock =>
          exact ⟨fun le enough => (ih clock).term_succ le (by omega),
            fun le enough => (ih clock).arguments_succ le (by omega),
            fun le enough => (ih clock).constructors_succ le (by omega),
            fun le enough => (ih clock).branches_succ le (by omega)⟩

end BoxCalculus.InPlace
