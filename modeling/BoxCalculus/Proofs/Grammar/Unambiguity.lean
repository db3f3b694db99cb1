import BoxCalculus.Proofs.Grammar.Completeness

/-!
# The grammar is unambiguous

Two derivations from the front of the same lexemes are the same derivation, whatever follows
(`unambiguous`).
-/

namespace BoxCalculus.Grammar

/-- A mark before a word can be told from the word. -/
theorem mark_word_inj {erased erased' : Bool} {name name' : String} {xs ys : List Lexeme} :
    mark erased ++ .word name :: xs = mark erased' ++ .word name' :: ys ↔
      erased = erased' ∧ name = name' ∧ xs = ys := by
  cases erased <;> cases erased' <;> simp [mark]

/-- A name is no keyword. -/
theorem word_ne {name key : String} (plain : name ∉ keywords) (reserved : key ∈ keywords)
    {xs ys : List Lexeme} : .word name :: xs ≠ .word key :: ys := by
  intro same
  obtain ⟨head, -⟩ := List.cons.inj same
  exact plain (Lexeme.word.inj head ▸ reserved)

/-- A derivation does not start with a symbol that starts no term. -/
theorem Derivation.front_ne {ar : Arith} {scope : List String} {xs : List Lexeme} {t : Term}
    (derivation : Derivation ar scope xs t) {text : String}
    (other : starts (.symbol text) = false) {rest more : List Lexeme} :
    xs ++ rest ≠ .symbol text :: more := by
  obtain ⟨first, _, rfl, start⟩ := derivation.exists_first
  intro same
  obtain ⟨rfl, -⟩ := List.cons.inj same
  exact Bool.noConfusion (other.symm.trans start)

/-- Neither an argument nor its mark is a closing parenthesis. -/
theorem Derivation.marked_ne {ar : Arith} {scope : List String} {xs : List Lexeme} {t : Term}
    (derivation : Derivation ar scope xs t) {erased : Bool} {rest more : List Lexeme} :
    mark erased ++ (xs ++ rest) ≠ .symbol ")" :: more := by
  cases erased with
  | false => exact derivation.front_ne rfl
  | true => simp [mark]

/-- A mark before a term can be told from the term. -/
theorem mark_front_inj {ar : Arith} {scope : List String} {xs ys : List Lexeme} {t u : Term}
    (first : Derivation ar scope xs t) (second : Derivation ar scope ys u) {erased erased' : Bool}
    {rest rest' : List Lexeme}
    (same : mark erased ++ (xs ++ rest) = mark erased' ++ (ys ++ rest')) :
    erased = erased' ∧ xs ++ rest = ys ++ rest' := by
  cases erased with
  | false =>
      cases erased' with
      | false => exact ⟨rfl, same⟩
      | true => exact absurd same (first.front_ne rfl)
  | true =>
      cases erased' with
      | false => exact absurd same.symm (second.front_ne rfl)
      | true => exact ⟨rfl, (List.cons.inj same).2⟩

/-- Two derivations from the front of the same lexemes are the same, and so is what follows, as long
as the first has at most so many lexemes. Arguments and the entries of a block go on to what closes
them. -/
structure Unambiguous (ar : Arith) (size : Nat) : Prop where
  term : ∀ {scope xs ys rest rest' t u} (first : Derivation ar scope xs t)
    (second : Derivation ar scope ys u), xs ++ rest = ys ++ rest' → xs.length ≤ size →
    xs = ys ∧ t = u ∧ HEq first second ∧ rest = rest'
  arguments : ∀ {scope xs ys rest rest' args args'} (first : Arguments ar scope xs args)
    (second : Arguments ar scope ys args'),
    xs ++ .symbol ")" :: rest = ys ++ .symbol ")" :: rest' → xs.length < size →
    xs = ys ∧ args = args' ∧ HEq first second ∧ rest = rest'
  block : ∀ {separator scope xs ys rest rest' entries entries'}
    (first : Block ar separator scope xs entries) (second : Block ar separator scope ys entries'),
    xs ++ .symbol "\x7d" :: rest = ys ++ .symbol "\x7d" :: rest' → xs.length < size →
    xs = ys ∧ entries = entries' ∧ HEq first second ∧ rest = rest'

namespace Unambiguous

variable {ar : Arith} {size : Nat} (unique : Unambiguous ar size) {scope : List String}
  {xs ys rest rest' : List Lexeme}

include unique

/-- Two terms with a lexeme between them. -/
theorem both {inner : List String} {xs' ys' : List Lexeme} {t t' u u' : Term} {sign : Lexeme}
    (first : Derivation ar scope xs t) (first' : Derivation ar scope xs' t')
    (second : Derivation ar inner ys u) (second' : Derivation ar inner ys' u')
    (same : xs ++ sign :: (ys ++ rest) = xs' ++ sign :: (ys' ++ rest'))
    (enough : xs.length + ys.length ≤ size) :
    xs = xs' ∧ t = t' ∧ HEq first first' ∧ ys = ys' ∧ u = u' ∧ HEq second second' ∧
      rest = rest' := by
  obtain ⟨xs_eq, t_eq, first_eq, same⟩ := unique.term first first' same (by omega)
  obtain ⟨-, same⟩ := List.cons.inj same
  exact ⟨xs_eq, t_eq, first_eq, unique.term second second' same (by omega)⟩

-- The first lexeme tells the rules apart, except for a lambda with a domain and one without.
/-- Two derivations of terms from the same lexemes are the same, if those of their parts are. -/
theorem term_succ {t u : Term} (derivation : Derivation ar scope xs t)
    (derivation' : Derivation ar scope ys u) (same : xs ++ rest = ys ++ rest')
    (enough : xs.length ≤ size + 1) :
    xs = ys ∧ t = u ∧ HEq derivation derivation' ∧ rest = rest' := by
  cases derivation with
  | univ =>
      cases derivation' with
      | univ => exact ⟨rfl, rfl, .rfl, List.append_cancel_left same⟩
      | bound plain' | reference plain' => exact absurd same.symm (word_ne plain' (by decide))
      | _ => simp at same
  | free numeral small =>
      cases derivation' with
      | free numeral' small' =>
          simp only [List.cons_append, List.nil_append, List.cons.injEq, Lexeme.free.injEq] at same
          obtain ⟨rfl, rfl⟩ := same
          obtain rfl := numeral.2.symm.trans numeral'.2
          exact ⟨rfl, rfl, .rfl, rfl⟩
      | _ => simp at same
  | bound plain innermost =>
      cases derivation' with
      | bound plain' innermost' =>
          simp only [List.cons_append, List.nil_append, List.cons.injEq, Lexeme.word.injEq] at same
          obtain ⟨rfl, rfl⟩ := same
          rw [innermost_iff] at innermost innermost'
          obtain rfl := Option.some.inj (innermost.symm.trans innermost')
          exact ⟨rfl, rfl, .rfl, rfl⟩
      | reference plain' free =>
          simp only [List.cons_append, List.nil_append, List.cons.injEq, Lexeme.word.injEq] at same
          exact absurd (same.1 ▸ List.mem_of_getElem? innermost.1) free
      | univ | pair | split | data | caseOf | dup | letIn | box | boxType =>
          exact absurd same (word_ne plain (by decide))
      | _ => simp at same
  | reference plain free =>
      cases derivation' with
      | reference plain' free' =>
          simp only [List.cons_append, List.nil_append, List.cons.injEq, Lexeme.word.injEq] at same
          obtain ⟨rfl, rfl⟩ := same
          exact ⟨rfl, rfl, .rfl, rfl⟩
      | bound plain' innermost =>
          simp only [List.cons_append, List.nil_append, List.cons.injEq, Lexeme.word.injEq] at same
          exact absurd (same.1 ▸ List.mem_of_getElem? innermost.1) free
      | univ | pair | split | data | caseOf | dup | letIn | box | boxType =>
          exact absurd same (word_ne plain (by decide))
      | _ => simp at same
  | pi plain first second =>
      cases derivation' with
      | pi plain' first' second' =>
          simp only [List.cons_append, List.append_assoc, List.cons.injEq, mark_word_inj, true_and,
            List.length_cons, List.length_append] at same enough
          obtain ⟨rfl, rfl, same⟩ := same
          obtain ⟨rfl, rfl, ⟨⟩, rfl, rfl, ⟨⟩, rfl⟩ :=
            unique.both first first' second second' same (by omega)
          exact ⟨rfl, rfl, .rfl, rfl⟩
      | _ => simp at same
  | lam plain first second =>
      cases derivation' with
      | lam plain' first' second' =>
          simp only [List.cons_append, List.append_assoc, List.cons.injEq, mark_word_inj, true_and,
            List.length_cons, List.length_append] at same enough
          obtain ⟨rfl, rfl, same⟩ := same
          obtain ⟨rfl, rfl, ⟨⟩, rfl, rfl, ⟨⟩, rfl⟩ :=
            unique.both first first' second second' same (by omega)
          exact ⟨rfl, rfl, .rfl, rfl⟩
      | bare => simp [mark_word_inj] at same
      | _ => simp at same
  | bare plain inner =>
      cases derivation' with
      | bare plain' inner' =>
          simp only [List.cons_append, List.append_assoc, List.cons.injEq, mark_word_inj, true_and,
            List.length_cons, List.length_append] at same enough
          obtain ⟨rfl, rfl, same⟩ := same
          obtain ⟨rfl, rfl, ⟨⟩, rfl⟩ := unique.term inner inner' same (by omega)
          exact ⟨rfl, rfl, .rfl, rfl⟩
      | lam => simp [mark_word_inj] at same
      | _ => simp at same
  | spine first others =>
      cases derivation' with
      | spine first' others' =>
          simp only [List.cons_append, List.append_assoc, List.nil_append, List.cons.injEq,
            true_and, List.length_cons, List.length_append] at same enough
          obtain ⟨rfl, rfl, ⟨⟩, same⟩ := unique.term first first' same (by omega)
          have positive := first.length_pos
          obtain ⟨rfl, rfl, ⟨⟩, rfl⟩ := unique.arguments others others' same (by omega)
          exact ⟨rfl, rfl, .rfl, rfl⟩
      | _ => simp at same
  | sigma plain first second =>
      cases derivation' with
      | sigma plain' first' second' =>
          simp only [List.cons_append, List.append_assoc, List.cons.injEq, mark_word_inj, true_and,
            List.length_cons, List.length_append] at same enough
          obtain ⟨rfl, rfl, same⟩ := same
          obtain ⟨rfl, rfl, ⟨⟩, rfl, rfl, ⟨⟩, rfl⟩ :=
            unique.both first first' second second' same (by omega)
          exact ⟨rfl, rfl, .rfl, rfl⟩
      | _ => simp at same
  | pair first second third =>
      cases derivation' with
      | pair first' second' third' =>
          simp only [List.cons_append, List.append_assoc, List.cons.injEq, true_and,
            List.length_cons, List.length_append] at same enough
          obtain ⟨rfl, front⟩ := mark_front_inj first first' same
          obtain ⟨rfl, rfl, ⟨⟩, same⟩ := unique.term first first' front (by omega)
          obtain ⟨rfl, rfl, ⟨⟩, same⟩ := unique.term second second' same (by omega)
          obtain ⟨rfl, rfl, ⟨⟩, rfl⟩ := unique.term third third' same (by omega)
          exact ⟨rfl, rfl, .rfl, rfl⟩
      | bound plain' | reference plain' => exact absurd same.symm (word_ne plain' (by decide))
      | _ => simp at same
  | split plain fst_plain snd_plain first second third =>
      cases derivation' with
      | split plain' fst_plain' snd_plain' first' second' third' =>
          simp only [List.cons_append, List.append_assoc, List.cons.injEq, true_and,
            List.length_cons, List.length_append] at same enough
          obtain ⟨rfl, front⟩ := mark_front_inj first first' same
          obtain ⟨rfl, rfl, ⟨⟩, binder⟩ := unique.term first first' front (by omega)
          simp only [List.cons.injEq, Lexeme.word.injEq, true_and] at binder
          obtain ⟨rfl, motive⟩ := binder
          obtain ⟨rfl, rfl, ⟨⟩, binders⟩ := unique.term second second' motive (by omega)
          simp only [List.cons.injEq, Lexeme.word.injEq, true_and] at binders
          obtain ⟨rfl, rfl, body⟩ := binders
          obtain ⟨rfl, rfl, ⟨⟩, rfl⟩ := unique.term third third' body (by omega)
          exact ⟨rfl, rfl, .rfl, rfl⟩
      | bound plain' | reference plain' => exact absurd same.symm (word_ne plain' (by decide))
      | _ => simp at same
  | data plain nodup first block =>
      cases derivation' with
      | data plain' nodup' first' block' =>
          simp only [List.cons_append, List.append_assoc, List.nil_append, List.cons.injEq,
            Lexeme.word.injEq, true_and, List.length_cons, List.length_append] at same enough
          obtain ⟨rfl, same⟩ := same
          obtain ⟨rfl, rfl, ⟨⟩, same⟩ := unique.term first first' same (by omega)
          obtain ⟨-, same⟩ := List.cons.inj same
          obtain ⟨rfl, rfl, ⟨⟩, rfl⟩ := unique.block block block' same (by omega)
          exact ⟨rfl, rfl, .rfl, rfl⟩
      | bound plain' | reference plain' => exact absurd same.symm (word_ne plain' (by decide))
      | _ => simp at same
  | ctr plain inner =>
      cases derivation' with
      | ctr plain' inner' =>
          simp only [List.cons_append, List.cons.injEq, Lexeme.word.injEq, true_and,
            List.length_cons] at same enough
          obtain ⟨rfl, same⟩ := same
          obtain ⟨rfl, rfl, ⟨⟩, rfl⟩ := unique.term inner inner' same (by omega)
          exact ⟨rfl, rfl, .rfl, rfl⟩
      | _ => simp at same
  | caseOf plain first second third block =>
      cases derivation' with
      | caseOf plain' first' second' third' block' =>
          simp only [List.cons_append, List.append_assoc, List.nil_append, List.cons.injEq,
            true_and, List.length_cons, List.length_append] at same enough
          obtain ⟨rfl, rfl, ⟨⟩, same⟩ := unique.term first first' same (by omega)
          obtain ⟨-, same⟩ := List.cons.inj same
          obtain ⟨rfl, rfl, ⟨⟩, binder⟩ := unique.term second second' same (by omega)
          simp only [List.cons.injEq, Lexeme.word.injEq, true_and] at binder
          obtain ⟨rfl, motive⟩ := binder
          obtain ⟨rfl, rfl, ⟨⟩, same⟩ := unique.term third third' motive (by omega)
          obtain ⟨-, same⟩ := List.cons.inj same
          obtain ⟨rfl, rfl, ⟨⟩, rfl⟩ := unique.block block block' same (by omega)
          exact ⟨rfl, rfl, .rfl, rfl⟩
      | bound plain' | reference plain' => exact absurd same.symm (word_ne plain' (by decide))
      | _ => simp at same
  | dup plain first second =>
      cases derivation' with
      | dup plain' first' second' =>
          simp only [List.cons_append, List.append_assoc, List.cons.injEq, Lexeme.word.injEq,
            true_and, List.length_cons, List.length_append] at same enough
          obtain ⟨rfl, same⟩ := same
          obtain ⟨rfl, rfl, ⟨⟩, rfl, rfl, ⟨⟩, rfl⟩ :=
            unique.both first first' second second' same (by omega)
          exact ⟨rfl, rfl, .rfl, rfl⟩
      | bound plain' | reference plain' => exact absurd same.symm (word_ne plain' (by decide))
      | _ => simp at same
  | letIn plain first second =>
      cases derivation' with
      | letIn plain' first' second' =>
          simp only [List.cons_append, List.append_assoc, List.cons.injEq, Lexeme.word.injEq,
            true_and, List.length_cons, List.length_append] at same enough
          obtain ⟨rfl, same⟩ := same
          obtain ⟨rfl, rfl, ⟨⟩, rfl, rfl, ⟨⟩, rfl⟩ :=
            unique.both first first' second second' same (by omega)
          exact ⟨rfl, rfl, .rfl, rfl⟩
      | bound plain' | reference plain' => exact absurd same.symm (word_ne plain' (by decide))
      | _ => simp at same
  | box inner =>
      cases derivation' with
      | box inner' =>
          rw [List.length_cons] at enough
          obtain ⟨-, same⟩ := List.cons.inj same
          obtain ⟨rfl, rfl, ⟨⟩, rfl⟩ := unique.term inner inner' same (by omega)
          exact ⟨rfl, rfl, .rfl, rfl⟩
      | bound plain' | reference plain' => exact absurd same.symm (word_ne plain' (by decide))
      | _ => simp at same
  | boxType inner =>
      cases derivation' with
      | boxType inner' =>
          rw [List.length_cons] at enough
          obtain ⟨-, same⟩ := List.cons.inj same
          obtain ⟨rfl, rfl, ⟨⟩, rfl⟩ := unique.term inner inner' same (by omega)
          exact ⟨rfl, rfl, .rfl, rfl⟩
      | bound plain' | reference plain' => exact absurd same.symm (word_ne plain' (by decide))
      | _ => simp at same

/-- Two derivations of arguments from the same lexemes are the same, if those of their parts are. -/
theorem arguments_succ {args args' : List (Bool × Term)} (derivation : Arguments ar scope xs args)
    (derivation' : Arguments ar scope ys args')
    (same : xs ++ .symbol ")" :: rest = ys ++ .symbol ")" :: rest')
    (enough : xs.length < size + 1) :
    xs = ys ∧ args = args' ∧ HEq derivation derivation' ∧ rest = rest' := by
  cases derivation with
  | nil =>
      cases derivation' with
      | nil => exact ⟨rfl, rfl, .rfl, (List.cons.inj same).2⟩
      | cons first' others' =>
          rw [List.nil_append, List.append_assoc, List.append_assoc] at same
          exact absurd same.symm first'.marked_ne
  | cons first others =>
      cases derivation' with
      | nil =>
          rw [List.nil_append, List.append_assoc, List.append_assoc] at same
          exact absurd same first.marked_ne
      | cons first' others' =>
          have positive := first.length_pos
          simp only [List.append_assoc, List.length_append] at same enough
          obtain ⟨rfl, front⟩ := mark_front_inj first first' same
          obtain ⟨rfl, rfl, ⟨⟩, same⟩ := unique.term first first' front (by omega)
          obtain ⟨rfl, rfl, ⟨⟩, rfl⟩ := unique.arguments others others' same (by omega)
          exact ⟨rfl, rfl, .rfl, rfl⟩

/-- Two derivations of entries from the same lexemes are the same, if those of their parts are. -/
theorem block_succ {separator : String} {entries entries' : Entries}
    (block : Block ar separator scope xs entries) (block' : Block ar separator scope ys entries')
    (same : xs ++ .symbol "\x7d" :: rest = ys ++ .symbol "\x7d" :: rest')
    (enough : xs.length < size + 1) :
    xs = ys ∧ entries = entries' ∧ HEq block block' ∧ rest = rest' := by
  cases block with
  | nil =>
      cases block' with
      | nil => exact ⟨rfl, rfl, .rfl, (List.cons.inj same).2⟩
      | _ => simp at same
  | last plain first =>
      cases block' with
      | nil => simp at same
      | last plain' first' =>
          simp only [List.cons_append, List.cons.injEq, Lexeme.word.injEq, true_and,
            List.length_cons] at same enough
          obtain ⟨rfl, same⟩ := same
          obtain ⟨rfl, rfl, ⟨⟩, same⟩ := unique.term first first' same (by omega)
          exact ⟨rfl, rfl, .rfl, (List.cons.inj same).2⟩
      | cons plain' first' others' =>
          simp only [List.cons_append, List.append_assoc, List.cons.injEq, List.length_cons]
            at same enough
          obtain ⟨-, -, -, same⟩ := unique.term first first' same.2.2 (by omega)
          simp at same
  | cons plain first others =>
      cases block' with
      | nil => simp at same
      | last plain' first' =>
          simp only [List.cons_append, List.append_assoc, List.cons.injEq, List.length_cons,
            List.length_append] at same enough
          obtain ⟨-, -, -, same⟩ := unique.term first first' same.2.2 (by omega)
          simp at same
      | cons plain' first' others' =>
          simp only [List.cons_append, List.append_assoc, List.cons.injEq, Lexeme.word.injEq,
            true_and, List.length_cons, List.length_append] at same enough
          obtain ⟨rfl, same⟩ := same
          obtain ⟨rfl, rfl, ⟨⟩, same⟩ := unique.term first first' same (by omega)
          obtain ⟨-, same⟩ := List.cons.inj same
          obtain ⟨rfl, rfl, ⟨⟩, rfl⟩ := unique.block others others' same (by omega)
          exact ⟨rfl, rfl, .rfl, rfl⟩

end Unambiguous

/-- Two derivations from the front of the same lexemes are the same. -/
theorem unambiguous (ar : Arith) (size : Nat) : Unambiguous ar size := by
  induction size with
  | zero =>
      refine ⟨fun first _ _ enough => ?_, ?_, ?_⟩
      · exact absurd first.length_pos (by omega)
      all_goals intros; omega
  | succ size unique => exact ⟨unique.term_succ, unique.arguments_succ, unique.block_succ⟩

end BoxCalculus.Grammar
