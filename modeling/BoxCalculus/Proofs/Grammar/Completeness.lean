import BoxCalculus.Proofs.Grammar.Derivations
import BoxCalculus.Proofs.RoundTrip.Reading

/-!
# The readers find what the grammar derives

Where lexemes from which the grammar derives a term stand at the front of some tokens, the reader of
terms finds the term and goes on behind them (`Parser.complete`).
-/

namespace BoxCalculus

/-- The lexemes stand ahead of the rest in the tokens. -/
def Ahead (lexemes : List Lexeme) (tokens rest : List Token) : Prop :=
  ∃ front, front.map Token.lexeme = lexemes ∧ tokens = front ++ rest

namespace Ahead

variable {lexeme : Lexeme} {xs ys : List Lexeme} {tokens middle rest : List Token}

/-- No lexemes stand ahead of all tokens. -/
@[simp] theorem nil_iff : Ahead [] tokens rest ↔ tokens = rest := by
  simp [Ahead]

/-- A lexeme stands ahead as the first token. -/
@[simp] theorem cons_iff : Ahead (lexeme :: xs) tokens rest ↔
    ∃ pos more, tokens = ⟨lexeme, pos⟩ :: more ∧ Ahead xs more rest := by
  constructor
  · rintro ⟨front, same, rfl⟩
    obtain ⟨token, front, rfl, rfl, rfl⟩ := List.map_eq_cons_iff.1 same
    exact ⟨token.pos, front ++ rest, rfl, front, rfl, rfl⟩
  · rintro ⟨pos, _, rfl, front, rfl, rfl⟩
    exact ⟨⟨lexeme, pos⟩ :: front, rfl, rfl⟩

/-- Lexemes stand ahead one list after the other. -/
@[simp] theorem append_iff : Ahead (xs ++ ys) tokens rest ↔
    ∃ middle, Ahead xs tokens middle ∧ Ahead ys middle rest := by
  constructor
  · rintro ⟨front, same, rfl⟩
    obtain ⟨first, second, rfl, rfl, rfl⟩ := List.map_eq_append_iff.1 same
    exact ⟨second ++ rest, ⟨first, rfl, List.append_assoc ..⟩, second, rfl, rfl⟩
  · rintro ⟨_, ⟨first, rfl, rfl⟩, second, rfl, rfl⟩
    exact ⟨first ++ second, List.map_append, (List.append_assoc ..).symm⟩

/-- Lexemes that stand ahead of others stand ahead together with them. -/
theorem append (first : Ahead xs tokens middle) (second : Ahead ys middle rest) :
    Ahead (xs ++ ys) tokens rest :=
  append_iff.2 ⟨middle, first, second⟩

/-- A lexeme that stands ahead of others stands ahead together with them. -/
theorem cons (first : Ahead [lexeme] tokens middle) (second : Ahead xs middle rest) :
    Ahead (lexeme :: xs) tokens rest :=
  first.append second

/-- No lexemes stand ahead of any tokens. -/
theorem nil (tokens : List Token) : Ahead [] tokens tokens :=
  nil_iff.2 rfl

/-- A token stands ahead with its lexeme. -/
theorem token {pos : Pos} (ahead : Ahead xs tokens rest) :
    Ahead (lexeme :: xs) (⟨lexeme, pos⟩ :: tokens) rest :=
  cons_iff.2 ⟨pos, tokens, rfl, ahead⟩

/-- Lexemes ahead and tokens behind them are as many as all tokens. -/
theorem length_eq (ahead : Ahead xs tokens rest) : tokens.length = xs.length + rest.length := by
  obtain ⟨front, rfl, rfl⟩ := ahead
  simp

end Ahead

namespace Grammar

/-- The lexeme can be the first one of a term. -/
def starts : Lexeme → Bool
  | .word _ | .free _ => true
  | .symbol text => ["\x7b", "[", "(", "<", "."].contains text
  | .eof => false

/-- A derivation starts with a lexeme that can be the first one of a term. -/
theorem Derivation.exists_first {ar : Arith} {scope : List String} {xs : List Lexeme} {t : Term}
    (derivation : Derivation ar scope xs t) : ∃ first more, xs = first :: more ∧ starts first := by
  cases derivation <;> exact ⟨_, _, rfl, rfl⟩

/-- A derivation takes at least one lexeme. -/
theorem Derivation.length_pos {ar : Arith} {scope : List String} {xs : List Lexeme} {t : Term}
    (derivation : Derivation ar scope xs t) : 0 < xs.length := by
  obtain ⟨first, more, rfl, -⟩ := derivation.exists_first
  exact Nat.succ_pos _

/-- The binder of a name is the first one in the scope. -/
theorem innermost_iff {scope : List String} {name : String} {index : Nat} :
    Innermost scope name index ↔ scope.idxOf? name = some index := by
  rw [Innermost, List.idxOf?_eq_some_iff]
  constructor
  · rintro ⟨found, outer⟩
    obtain ⟨bound, here⟩ := List.getElem?_eq_some_iff.1 found
    refine ⟨bound, here, fun j lower same => outer ?_⟩
    exact List.mem_take_iff_getElem.2 ⟨j, by omega, same⟩
  · rintro ⟨bound, here, first⟩
    refine ⟨List.getElem?_eq_some_iff.2 ⟨bound, here⟩, fun mem => ?_⟩
    obtain ⟨j, lower, same⟩ := List.mem_take_iff_getElem.1 mem
    exact first j (by omega) same

/-- What can be read as an index is a numeral of it. -/
theorem readIndex?_eq_some_iff {digits : String} {i : Int} : readIndex? digits = some i ↔
    ∃ k : Nat, i = k ∧ Numeral digits k ∧ k < 0x8000_0000_0000_0000 := by
  have value := Parser.foldl_digits digits.toList 0
  rw [Int.natCast_zero] at value
  rw [readIndex?, value]
  constructor
  · intro read
    split at read
    · rename_i digit
      dsimp only at read
      split at read
      · rename_i small
        cases read
        exact ⟨_, rfl, ⟨List.all_eq_true.1 digit, rfl⟩, by omega⟩
      · cases read
    · cases read
  · rintro ⟨_, rfl, ⟨digit, rfl⟩, small⟩
    rw [if_pos (List.all_eq_true.2 digit)]
    exact if_pos (by omega)

end Grammar

namespace Parser

open Grammar

/-- A mark of erasure, or its absence, is found where it stands. -/
theorem erasure_of_ahead {erased : Bool} {tokens rest : List Token}
    (ahead : Ahead (mark erased) tokens rest) (other : atSymbol "-" rest = false) :
    erasure tokens = (erased, rest) := by
  cases erased with
  | false =>
      obtain rfl := Ahead.nil_iff.1 ahead
      simp [erasure, other]
  | true =>
      obtain ⟨pos, more, rfl, last⟩ := Ahead.cons_iff.1 ahead
      obtain rfl := Ahead.nil_iff.1 last
      simp [erasure, atSymbol]

/-- A term does not start with a symbol that starts no term. -/
theorem atSymbol_of_ahead {ar : Arith} {scope : List String} {xs : List Lexeme} {t : Term}
    (derivation : Derivation ar scope xs t) {tokens rest : List Token}
    (ahead : Ahead xs tokens rest) {text : String} (other : starts (.symbol text) = false) :
    atSymbol text tokens = false := by
  obtain ⟨first, more, rfl, start⟩ := derivation.exists_first
  obtain ⟨pos, later, rfl, -⟩ := Ahead.cons_iff.1 ahead
  have differ : first ≠ .symbol text := by
    rintro rfl
    exact Bool.noConfusion (other.symm.trans start)
  simp [atSymbol, differ]

/-- With this much fuel the readers find what the grammar derives. Arguments and the entries of a block
take one more step, for what closes them. -/
structure Complete (ar : Arith) (fuel : Nat) : Prop where
  term_eq : ∀ {stop scope xs t tokens rest}, Derivation ar scope xs t → Ahead xs tokens rest →
    xs.length ≤ fuel → term ar stop fuel scope tokens = .ok (t, rest)
  arguments_eq : ∀ {stop pos scope xs args fn tokens rest}, Arguments ar scope xs args →
    Ahead xs tokens (⟨.symbol ")", pos⟩ :: rest) → xs.length < fuel →
    arguments ar stop fuel scope fn tokens = .ok (fn.apply args, rest)
  constructors_eq : ∀ {stop pos scope xs entries seen tokens rest}, Block ar ":" scope xs entries →
    Ahead xs tokens (⟨.symbol "\x7d", pos⟩ :: rest) → (∀ label ∈ entries.labels, label ∉ seen) →
    entries.labels.Nodup → xs.length < fuel →
    constructors ar stop fuel scope seen tokens = .ok (entries, rest)
  branches_eq : ∀ {stop pos scope xs entries tokens rest}, Block ar "=>" scope xs entries →
    Ahead xs tokens (⟨.symbol "\x7d", pos⟩ :: rest) → xs.length < fuel →
    branches ar stop fuel scope tokens = .ok (entries, rest)

namespace Complete

variable {ar : Arith} {fuel : Nat} (complete : Complete ar fuel) {stop pos : Pos}
  {scope : List String} {xs : List Lexeme} {tokens rest : List Token}

include complete

/-- The reader finds a term that is derived, if the readers find its parts. -/
theorem term_succ {t : Term} (derivation : Derivation ar scope xs t)
    (ahead : Ahead xs tokens rest) (enough : xs.length ≤ fuel + 1) :
    term ar stop (fuel + 1) scope tokens = .ok (t, rest) := by
  cases derivation with
  | univ =>
      simp only [Ahead.cons_iff, Ahead.nil_iff] at ahead
      obtain ⟨_, _, rfl, rfl⟩ := ahead
      simp [term]
  | free numeral small =>
      simp only [Ahead.cons_iff, Ahead.nil_iff] at ahead
      obtain ⟨_, _, rfl, rfl⟩ := ahead
      simp [term, readIndex?_eq_some_iff.2 ⟨_, rfl, numeral, small⟩]
  | bound plain innermost =>
      simp only [Ahead.cons_iff, Ahead.nil_iff] at ahead
      obtain ⟨_, _, rfl, rfl⟩ := ahead
      rw [term_word plain, resolve, innermost_iff.1 innermost]
  | reference plain free =>
      simp only [Ahead.cons_iff, Ahead.nil_iff] at ahead
      obtain ⟨_, _, rfl, rfl⟩ := ahead
      rw [term_word plain, resolve_ref free]
  | pi plain first second =>
      simp only [Ahead.cons_iff, Ahead.append_iff] at ahead
      obtain ⟨_, _, rfl, _, marked, _, _, rfl, _, _, rfl, _, ahead, _, _, rfl, ahead'⟩ := ahead
      simp only [List.length_cons, List.length_append] at enough
      simp (disch := omega) [term, erasure_of_ahead marked rfl, name_word plain,
        complete.term_eq first ahead, complete.term_eq second ahead']
  | lam plain first second =>
      simp only [Ahead.cons_iff, Ahead.append_iff] at ahead
      obtain ⟨_, _, rfl, _, marked, _, _, rfl, _, _, rfl, _, ahead, _, _, rfl, ahead'⟩ := ahead
      simp only [List.length_cons, List.length_append] at enough
      simp (disch := omega) [term, erasure_of_ahead marked rfl, name_word plain, atSymbol,
        complete.term_eq first ahead, complete.term_eq second ahead']
  | bare plain inner =>
      simp only [Ahead.cons_iff, Ahead.append_iff] at ahead
      obtain ⟨_, _, rfl, _, marked, _, _, rfl, _, _, rfl, ahead⟩ := ahead
      simp only [List.length_cons, List.length_append] at enough
      simp (disch := omega) [term, erasure_of_ahead marked rfl, name_word plain, atSymbol,
        complete.term_eq inner ahead]
  | spine first others =>
      simp only [Ahead.cons_iff, Ahead.append_iff, Ahead.nil_iff] at ahead
      obtain ⟨_, _, rfl, _, ahead, _, ahead', _, _, rfl, rfl⟩ := ahead
      have positive := first.length_pos
      simp only [List.length_cons, List.length_append] at enough
      simp (disch := omega) [term, complete.term_eq first ahead,
        complete.arguments_eq others ahead']
  | sigma plain first second =>
      simp only [Ahead.cons_iff, Ahead.append_iff] at ahead
      obtain ⟨_, _, rfl, _, marked, _, _, rfl, _, _, rfl, _, ahead, _, _, rfl, ahead'⟩ := ahead
      simp only [List.length_cons, List.length_append] at enough
      simp (disch := omega) [term, erasure_of_ahead marked rfl, name_word plain,
        complete.term_eq first ahead, complete.term_eq second ahead']
  | pair first second third =>
      simp only [Ahead.cons_iff, Ahead.append_iff] at ahead
      obtain ⟨_, _, rfl, _, marked, _, ahead, _, ahead', ahead''⟩ := ahead
      simp only [List.length_cons, List.length_append] at enough
      simp (disch := omega) [term, erasure_of_ahead marked (atSymbol_of_ahead first ahead rfl),
        complete.term_eq first ahead, complete.term_eq second ahead',
        complete.term_eq third ahead'']
  | split plain fst_plain snd_plain first second third =>
      simp only [Ahead.cons_iff, Ahead.append_iff] at ahead
      obtain ⟨_, _, rfl, _, marked, _, ahead, _, _, rfl, _, _, rfl, _, _, rfl, _, ahead', _, _, rfl,
        _, _, rfl, _, _, rfl, _, _, rfl, ahead''⟩ := ahead
      simp only [List.length_cons, List.length_append] at enough
      simp (disch := omega) [term, erasure_of_ahead marked (atSymbol_of_ahead first ahead rfl),
        name_word plain, name_word fst_plain, name_word snd_plain, complete.term_eq first ahead,
        complete.term_eq second ahead', complete.term_eq third ahead'']
  | data plain nodup first block =>
      simp only [Ahead.cons_iff, Ahead.append_iff, Ahead.nil_iff] at ahead
      obtain ⟨_, _, rfl, _, _, rfl, _, _, rfl, _, ahead, _, _, rfl, _, ahead', _, _, rfl,
        rfl⟩ := ahead
      simp only [List.length_cons, List.length_append] at enough
      simp (disch := omega) [term, name_word plain, complete.term_eq first ahead,
        complete.constructors_eq block ahead' (fun _ _ => List.not_mem_nil) nodup]
  | ctr plain inner =>
      simp only [Ahead.cons_iff] at ahead
      obtain ⟨_, _, rfl, _, _, rfl, ahead⟩ := ahead
      simp only [List.length_cons] at enough
      simp (disch := omega) [term, name_word plain, complete.term_eq inner ahead]
  | caseOf plain first second third block =>
      simp only [Ahead.cons_iff, Ahead.append_iff, Ahead.nil_iff] at ahead
      obtain ⟨_, _, rfl, _, ahead, _, _, rfl, _, ahead', _, _, rfl, _, _, rfl, _, _, rfl, _,
        ahead'', _, _, rfl, _, entries, _, _, rfl, rfl⟩ := ahead
      simp only [List.length_cons, List.length_append] at enough
      simp (disch := omega) [term, name_word plain, complete.term_eq first ahead,
        complete.term_eq second ahead', complete.term_eq third ahead'',
        complete.branches_eq block entries]
  | dup plain first second =>
      simp only [Ahead.cons_iff, Ahead.append_iff] at ahead
      obtain ⟨_, _, rfl, _, _, rfl, _, _, rfl, _, ahead, _, _, rfl, ahead'⟩ := ahead
      simp only [List.length_cons, List.length_append] at enough
      simp (disch := omega) [term, name_word plain, complete.term_eq first ahead,
        complete.term_eq second ahead']
  | letIn plain first second =>
      simp only [Ahead.cons_iff, Ahead.append_iff] at ahead
      obtain ⟨_, _, rfl, _, _, rfl, _, _, rfl, _, ahead, _, _, rfl, ahead'⟩ := ahead
      simp only [List.length_cons, List.length_append] at enough
      simp (disch := omega) [term, name_word plain, complete.term_eq first ahead,
        complete.term_eq second ahead']
  | box inner =>
      simp only [Ahead.cons_iff] at ahead
      obtain ⟨_, _, rfl, ahead⟩ := ahead
      simp only [List.length_cons] at enough
      simp (disch := omega) [term, complete.term_eq inner ahead]
  | boxType inner =>
      simp only [Ahead.cons_iff] at ahead
      obtain ⟨_, _, rfl, ahead⟩ := ahead
      simp only [List.length_cons] at enough
      simp (disch := omega) [term, complete.term_eq inner ahead]

/-- The reader finds arguments that are derived, if the readers find each of them. -/
theorem arguments_succ {args : List (Bool × Term)} {fn : Term}
    (derivation : Arguments ar scope xs args) (ahead : Ahead xs tokens (⟨.symbol ")", pos⟩ :: rest))
    (enough : xs.length < fuel + 1) :
    arguments ar stop (fuel + 1) scope fn tokens = .ok (fn.apply args, rest) := by
  cases derivation with
  | nil =>
      obtain rfl := Ahead.nil_iff.1 ahead
      simp [arguments, atSymbol, Term.apply]
  | @cons _ erased _ _ _ _ first others =>
      simp only [Ahead.append_iff] at ahead
      obtain ⟨middle, marked, _, ahead, ahead'⟩ := ahead
      have positive := first.length_pos
      rw [List.length_append, List.length_append] at enough
      have mark := erasure_of_ahead marked (atSymbol_of_ahead first ahead rfl)
      -- Neither the mark nor a term can be taken for the closing parenthesis.
      have opened : atSymbol ")" tokens = false := by
        cases erased with
        | false =>
            obtain rfl := Ahead.nil_iff.1 marked
            exact atSymbol_of_ahead first ahead rfl
        | true =>
            obtain ⟨_, _, rfl, _⟩ := Ahead.cons_iff.1 marked
            rfl
      have there : tokens.isEmpty = false := by
        have length := (marked.append ahead).length_eq
        rw [List.isEmpty_eq_false_iff, ← List.length_pos_iff, length, List.length_append]
        omega
      simp (disch := omega) [arguments, opened, there, mark, complete.term_eq first ahead,
        complete.arguments_eq others ahead', Term.apply]

/-- The reader finds constructors that are derived, if their names are new. -/
theorem constructors_succ {entries : Entries} {seen : List String}
    (block : Block ar ":" scope xs entries)
    (ahead : Ahead xs tokens (⟨.symbol "\x7d", pos⟩ :: rest))
    (unseen : ∀ label ∈ entries.labels, label ∉ seen) (nodup : entries.labels.Nodup)
    (enough : xs.length < fuel + 1) :
    constructors ar stop (fuel + 1) scope seen tokens = .ok (entries, rest) := by
  cases block with
  | nil =>
      obtain rfl := Ahead.nil_iff.1 ahead
      simp [constructors, atSymbol]
  | last plain first =>
      simp only [Ahead.cons_iff] at ahead
      obtain ⟨_, _, rfl, _, _, rfl, ahead⟩ := ahead
      rw [List.length_cons, List.length_cons] at enough
      rw [Entries.labels, List.forall_mem_cons] at unseen
      simp (disch := omega) [constructors, atSymbol, name_word plain, unseen.1,
        complete.term_eq first ahead]
  | @cons _ _ label _ _ _ more plain first others =>
      simp only [Ahead.cons_iff, Ahead.append_iff] at ahead
      obtain ⟨_, _, rfl, _, _, rfl, _, ahead, _, _, rfl, ahead'⟩ := ahead
      simp only [Entries.labels, List.forall_mem_cons, List.nodup_cons] at unseen nodup
      have later : ∀ other ∈ more.labels, other ∉ label :: seen :=
        fun other mem => List.not_mem_cons_of_ne_of_not_mem
          (fun same => nodup.1 (same ▸ mem)) (unseen.2 other mem)
      simp only [List.length_cons, List.length_append] at enough
      simp (disch := omega) [constructors, atSymbol, name_word plain, unseen.1,
        complete.term_eq first ahead, complete.constructors_eq others ahead' later nodup.2]

/-- The reader finds branches that are derived. -/
theorem branches_succ {entries : Entries} (block : Block ar "=>" scope xs entries)
    (ahead : Ahead xs tokens (⟨.symbol "\x7d", pos⟩ :: rest)) (enough : xs.length < fuel + 1) :
    branches ar stop (fuel + 1) scope tokens = .ok (entries, rest) := by
  cases block with
  | nil =>
      obtain rfl := Ahead.nil_iff.1 ahead
      simp [branches, atSymbol]
  | last plain first =>
      simp only [Ahead.cons_iff] at ahead
      obtain ⟨_, _, rfl, _, _, rfl, ahead⟩ := ahead
      simp only [List.length_cons] at enough
      simp (disch := omega) [branches, atSymbol, name_word plain, complete.term_eq first ahead]
  | cons plain first others =>
      simp only [Ahead.cons_iff, Ahead.append_iff] at ahead
      obtain ⟨_, _, rfl, _, _, rfl, _, ahead, _, _, rfl, ahead'⟩ := ahead
      simp only [List.length_cons, List.length_append] at enough
      simp (disch := omega) [branches, atSymbol, name_word plain, complete.term_eq first ahead,
        complete.branches_eq others ahead']

end Complete

/-- The readers find what the grammar derives, if there is fuel for each lexeme. -/
theorem complete (ar : Arith) (fuel : Nat) : Complete ar fuel := by
  induction fuel with
  | zero =>
      refine ⟨fun derivation _ enough => ?_, ?_, ?_, ?_⟩
      · exact absurd derivation.length_pos (by omega)
      all_goals intros; omega
  | succ fuel complete =>
      exact ⟨complete.term_succ, complete.arguments_succ, complete.constructors_succ,
        complete.branches_succ⟩

end Parser

end BoxCalculus
