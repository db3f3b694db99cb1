import BoxCalculus.Proofs.Grammar.Completeness
import BoxCalculus.Proofs.Unfolding

/-!
# The readers find only what the grammar derives

Where a reader succeeds, the grammar derives what it has found from the tokens that it has passed
over (`Parser.sound`).
-/

namespace BoxCalculus.Parser

open Grammar

/-- With this much fuel the readers find only what the grammar derives. -/
structure Sound (ar : Arith) (fuel : Nat) : Prop where
  of_term : ∀ {stop scope tokens t rest}, term ar stop fuel scope tokens = .ok (t, rest) →
    ∃ xs, Ahead xs tokens rest ∧ Nonempty (Derivation ar scope xs t)
  of_arguments : ∀ {stop scope fn tokens t rest},
    arguments ar stop fuel scope fn tokens = .ok (t, rest) →
    ∃ xs args, Ahead (xs ++ [.symbol ")"]) tokens rest ∧ Nonempty (Arguments ar scope xs args) ∧
      t = fn.apply args
  of_constructors : ∀ {stop scope seen tokens entries rest},
    constructors ar stop fuel scope seen tokens = .ok (entries, rest) →
    ∃ xs, Ahead (xs ++ [.symbol "\x7d"]) tokens rest ∧
      Nonempty (Block ar ":" scope xs entries) ∧ entries.labels.Nodup ∧
      ∀ label ∈ entries.labels, label ∉ seen
  of_branches : ∀ {stop scope tokens entries rest},
    branches ar stop fuel scope tokens = .ok (entries, rest) →
    ∃ xs, Ahead (xs ++ [.symbol "\x7d"]) tokens rest ∧ Nonempty (Block ar "=>" scope xs entries)

/-- Two steps succeed if the first does and then the second. -/
theorem bind_ok_iff {α β : Type} {x : Except SyntaxFault α} {f : α → Except SyntaxFault β} {b : β} :
    x >>= f = .ok b ↔ ∃ a, x = .ok a ∧ f a = .ok b := by
  constructor
  · exact ok_of_bind
  · rintro ⟨a, rfl, ok⟩
    exact ok

/-- A symbol is read where it stands ahead. -/
theorem symbol_ok_iff {stop : Pos} {text : String} {tokens rest : List Token} :
    symbol stop text tokens = .ok rest ↔ Ahead [.symbol text] tokens rest := by
  cases tokens with
  | nil => simp [symbol, failure]
  | cons token more =>
      obtain ⟨lexeme, pos⟩ := token
      by_cases same : lexeme = .symbol text <;> simp [symbol, failure, same]

/-- A keyword is read where it stands ahead. -/
theorem keyword_ok_iff {stop : Pos} {text : String} {tokens rest : List Token} :
    keyword stop text tokens = .ok rest ↔ Ahead [.word text] tokens rest := by
  cases tokens with
  | nil => simp [keyword, failure]
  | cons token more =>
      obtain ⟨lexeme, pos⟩ := token
      by_cases same : lexeme = .word text <;> simp [keyword, failure, same]

/-- A name is read where a word that is no keyword stands ahead. -/
theorem name_ok_iff {stop : Pos} {text : String} {tokens rest : List Token} :
    name stop tokens = .ok (text, rest) ↔ text ∉ keywords ∧ Ahead [.word text] tokens rest := by
  constructor
  · intro ok
    unfold name at ok
    split at ok
    · split at ok
      · cases ok
      · rename_i plain
        cases ok
        simpa using plain
    · cases ok
  · rintro ⟨plain, ahead⟩
    simp only [Ahead.cons_iff, Ahead.nil_iff] at ahead
    obtain ⟨_, _, rfl, rfl⟩ := ahead
    exact name_word plain ..

/-- A symbol that the tokens are at stands ahead. -/
theorem ahead_of_atSymbol {text : String} {tokens : List Token}
    (here : atSymbol text tokens = true) : Ahead [.symbol text] tokens tokens.tail := by
  cases tokens with
  | nil => cases here
  | cons token more =>
      obtain ⟨lexeme, pos⟩ := token
      obtain rfl : lexeme = .symbol text := by simpa [atSymbol] using here
      simp

/-- A mark of erasure that is read stands ahead, or none does. -/
theorem ahead_of_erasure {erased : Bool} {tokens rest : List Token}
    (mark : erasure tokens = (erased, rest)) : Ahead (Grammar.mark erased) tokens rest := by
  unfold erasure at mark
  split at mark
  · rename_i here
    cases mark
    exact ahead_of_atSymbol here
  · cases mark
    exact Ahead.nil_iff.2 rfl

/-- A name is derived with the meaning that the scope gives it. -/
theorem nonempty_resolve (ar : Arith) (scope : List String) {text : String}
    (plain : text ∉ keywords) :
    Nonempty (Derivation ar scope [.word text] (resolve scope text)) := by
  unfold resolve
  split
  · rename_i index found
    exact ⟨.bound plain (innermost_iff.2 found)⟩
  · rename_i free
    exact ⟨.reference plain (List.idxOf?_eq_none_iff.1 free)⟩

/-- An entry of a block and those after it stand ahead up to the closing brace. -/
theorem ahead_entry {label separator : String} {xs ys : List Lexeme}
    {tokens₁ tokens₂ tokens₃ tokens₄ tokens₅ rest : List Token}
    (self : Ahead [.word label] tokens₁ tokens₂) (sign : Ahead [.symbol separator] tokens₂ tokens₃)
    (first : Ahead xs tokens₃ tokens₄) (semicolon : Ahead [.symbol ";"] tokens₄ tokens₅)
    (others : Ahead (ys ++ [.symbol "\x7d"]) tokens₅ rest) :
    Ahead ((.word label :: .symbol separator :: (xs ++ .symbol ";" :: ys)) ++ [.symbol "\x7d"])
      tokens₁ rest := by
  have later : Ahead ((xs ++ .symbol ";" :: ys) ++ [.symbol "\x7d"]) tokens₃ rest := by
    rw [List.append_assoc]
    exact first.append (semicolon.cons others)
  exact self.cons (sign.cons later)

namespace Sound

-- A reader that succeeds has had fuel, but its cases do not say that the fuel is a successor.
variable {ar : Arith} {fuel : Nat} (sound : Sound ar (fuel - 1)) {stop : Pos}
  {scope : List String} {tokens rest : List Token}

include sound

/-- A term that is found is derived, if what the readers find in it is. -/
theorem term_step {t : Term} (ok : term ar stop fuel scope tokens = .ok (t, rest)) :
    ∃ xs, Ahead xs tokens rest ∧ Nonempty (Derivation ar scope xs t) := by
  revert ok
  fun_cases term ar stop fuel scope tokens
  all_goals simp only [failure, reduceCtorEq, false_imp_iff, bind_ok_iff, symbol_ok_iff,
    keyword_ok_iff, name_ok_iff, pure_eq_ok, Except.ok.injEq, Prod.mk.injEq, Prod.exists]
  case case4 less digits pos more k read =>
    intro ok
    obtain ⟨rfl, rfl⟩ := ok
    obtain ⟨k, rfl, numeral, small⟩ := readIndex?_eq_some_iff.1 read
    exact ⟨_, .token (.nil _), ⟨.free numeral small⟩⟩
  case case6 less pos more =>
    intro ok
    obtain ⟨rfl, rfl⟩ := ok
    exact ⟨_, .token (.nil _), ⟨.univ⟩⟩
  case case7 less pos more =>
    intro ok
    obtain ⟨type, _, read, rfl, rfl⟩ := ok
    obtain ⟨xs, ahead, ⟨inner⟩⟩ := sound.of_term read
    exact ⟨_, .token ahead, ⟨.boxType inner⟩⟩
  case case8 less pos more =>
    intro ok
    obtain ⟨value, _, read, rfl, rfl⟩ := ok
    obtain ⟨xs, ahead, ⟨inner⟩⟩ := sound.of_term read
    exact ⟨_, .token ahead, ⟨.box inner⟩⟩
  case case9 less pos more erased _ marked =>
    intro ok
    obtain ⟨type, _, type_read, fst, _, fst_read, snd, _, snd_read, rfl, rfl⟩ := ok
    obtain ⟨xs, ahead, ⟨first⟩⟩ := sound.of_term type_read
    obtain ⟨ys, ahead', ⟨second⟩⟩ := sound.of_term fst_read
    obtain ⟨zs, ahead'', ⟨third⟩⟩ := sound.of_term snd_read
    exact ⟨_, .token ((ahead_of_erasure marked).append (ahead.append (ahead'.append ahead''))),
      ⟨.pair first second third⟩⟩
  case case10 less pos more erased _ marked =>
    intro ok
    obtain ⟨scrutinee, _, scrutinee_read, _, binds, name, _, ⟨plain, self⟩, _, returns, motive, _,
      motive_read, _, opens, fstName, _, ⟨fst_plain, fst⟩, sndName, _, ⟨snd_plain, snd⟩, _, arrow,
      body, _, body_read, rfl, rfl⟩ := ok
    obtain ⟨xs, ahead, ⟨first⟩⟩ := sound.of_term scrutinee_read
    obtain ⟨ys, ahead', ⟨second⟩⟩ := sound.of_term motive_read
    obtain ⟨zs, ahead'', ⟨third⟩⟩ := sound.of_term body_read
    exact ⟨_, .token ((ahead_of_erasure marked).append (ahead.append (binds.cons (self.cons
      (returns.cons (ahead'.append (opens.cons (fst.cons (snd.cons (arrow.cons ahead'')))))))))),
      ⟨.split plain fst_plain snd_plain first second third⟩⟩
  case case11 less pos more =>
    intro ok
    obtain ⟨name, _, ⟨plain, self⟩, _, colon, type, _, type_read, _, opens, ctrs, _, ctrs_read, rfl,
      rfl⟩ := ok
    obtain ⟨xs, ahead, ⟨first⟩⟩ := sound.of_term type_read
    obtain ⟨ys, ahead', ⟨block⟩, nodup, -⟩ := sound.of_constructors ctrs_read
    exact ⟨_, .token (self.cons (colon.cons (ahead.append (opens.cons ahead')))),
      ⟨.data plain nodup first block⟩⟩
  case case12 less pos more =>
    intro ok
    obtain ⟨value, _, value_read, _, ofs, type, _, type_read, _, binds, name, _, ⟨plain, self⟩, _,
      returns, motive, _, motive_read, _, opens, branches, _, branches_read, rfl, rfl⟩ := ok
    obtain ⟨xs, ahead, ⟨first⟩⟩ := sound.of_term value_read
    obtain ⟨ys, ahead', ⟨second⟩⟩ := sound.of_term type_read
    obtain ⟨zs, ahead'', ⟨third⟩⟩ := sound.of_term motive_read
    obtain ⟨ws, entries, ⟨block⟩⟩ := sound.of_branches branches_read
    exact ⟨_, .token (ahead.append (ofs.cons (ahead'.append (binds.cons (self.cons (returns.cons
      (ahead''.append (opens.cons entries)))))))), ⟨.caseOf plain first second third block⟩⟩
  case case13 less pos more =>
    intro ok
    obtain ⟨name, _, ⟨plain, self⟩, _, equals, value, _, value_read, _, inside, body, _, body_read,
      rfl, rfl⟩ := ok
    obtain ⟨xs, ahead, ⟨first⟩⟩ := sound.of_term value_read
    obtain ⟨ys, ahead', ⟨second⟩⟩ := sound.of_term body_read
    exact ⟨_, .token (self.cons (equals.cons (ahead.append (inside.cons ahead')))),
      ⟨.dup plain first second⟩⟩
  case case14 less pos more =>
    intro ok
    obtain ⟨name, _, ⟨plain, self⟩, _, equals, value, _, value_read, _, inside, body, _, body_read,
      rfl, rfl⟩ := ok
    obtain ⟨xs, ahead, ⟨first⟩⟩ := sound.of_term value_read
    obtain ⟨ys, ahead', ⟨second⟩⟩ := sound.of_term body_read
    exact ⟨_, .token (self.cons (equals.cons (ahead.append (inside.cons ahead')))),
      ⟨.letIn plain first second⟩⟩
  case case15 =>
    intro ok
    split at ok <;> cases ok
  case case16 =>
    intro ok
    split at ok
    · cases ok
    · rename_i plain
      cases ok
      exact ⟨_, .token (.nil _), nonempty_resolve ar scope (by simpa using plain)⟩
  case case17 less pos more erased _ marked =>
    intro ok
    obtain ⟨name, _, ⟨plain, self⟩, _, colon, dom, _, dom_read, _, closes, cod, _, cod_read, rfl,
      rfl⟩ := ok
    obtain ⟨xs, ahead, ⟨first⟩⟩ := sound.of_term dom_read
    obtain ⟨ys, ahead', ⟨second⟩⟩ := sound.of_term cod_read
    exact ⟨_, .token ((ahead_of_erasure marked).append (self.cons (colon.cons
      (ahead.append (closes.cons ahead'))))), ⟨.pi plain first second⟩⟩
  case case18 less pos more erased _ marked =>
    intro ok
    obtain ⟨name, later, ⟨plain, self⟩, ok⟩ := ok
    split at ok
    · rename_i colon
      simp only [bind_ok_iff, symbol_ok_iff, Except.ok.injEq, Prod.mk.injEq, Prod.exists] at ok
      obtain ⟨dom, _, dom_read, _, closes, body, _, body_read, rfl, rfl⟩ := ok
      obtain ⟨xs, ahead, ⟨first⟩⟩ := sound.of_term dom_read
      obtain ⟨ys, ahead', ⟨second⟩⟩ := sound.of_term body_read
      exact ⟨_, .token ((ahead_of_erasure marked).append (self.cons ((ahead_of_atSymbol colon).cons
        (ahead.append (closes.cons ahead'))))), ⟨.lam plain first second⟩⟩
    · simp only [ok_bind, bind_ok_iff, symbol_ok_iff, Except.ok.injEq, Prod.mk.injEq, Prod.exists]
        at ok
      obtain ⟨_, closes, body, _, body_read, rfl, rfl⟩ := ok
      obtain ⟨xs, ahead, ⟨inner⟩⟩ := sound.of_term body_read
      exact ⟨_, .token ((ahead_of_erasure marked).append (self.cons (closes.cons ahead))),
        ⟨.bare plain inner⟩⟩
  case case19 less pos more =>
    intro ok
    obtain ⟨fn, _, fn_read, args_read⟩ := ok
    obtain ⟨xs, ahead, ⟨first⟩⟩ := sound.of_term fn_read
    obtain ⟨ys, args, ahead', ⟨others⟩, rfl⟩ := sound.of_arguments args_read
    exact ⟨_, .token (ahead.append ahead'), ⟨.spine first others⟩⟩
  case case20 less pos more erased _ marked =>
    intro ok
    obtain ⟨name, _, ⟨plain, self⟩, _, colon, fst, _, fst_read, _, closes, snd, _, snd_read, rfl,
      rfl⟩ := ok
    obtain ⟨xs, ahead, ⟨first⟩⟩ := sound.of_term fst_read
    obtain ⟨ys, ahead', ⟨second⟩⟩ := sound.of_term snd_read
    exact ⟨_, .token ((ahead_of_erasure marked).append (self.cons (colon.cons
      (ahead.append (closes.cons ahead'))))), ⟨.sigma plain first second⟩⟩
  case case21 less pos more =>
    intro ok
    obtain ⟨name, _, ⟨plain, self⟩, type, _, type_read, rfl, rfl⟩ := ok
    obtain ⟨xs, ahead, ⟨inner⟩⟩ := sound.of_term type_read
    exact ⟨_, .token (self.cons ahead), ⟨.ctr plain inner⟩⟩

/-- Arguments that are found are derived, up to the closing parenthesis. -/
theorem arguments_step {fn t : Term}
    (ok : arguments ar stop fuel scope fn tokens = .ok (t, rest)) :
    ∃ xs args, Ahead (xs ++ [.symbol ")"]) tokens rest ∧ Nonempty (Arguments ar scope xs args) ∧
      t = fn.apply args := by
  revert ok
  fun_cases arguments ar stop fuel scope fn tokens
  all_goals simp only [failure, reduceCtorEq, false_imp_iff, bind_ok_iff, Except.ok.injEq,
    Prod.mk.injEq, Prod.exists]
  case case2 less closes =>
    intro ok
    obtain ⟨rfl, rfl⟩ := ok
    exact ⟨_, _, ahead_of_atSymbol closes, ⟨.nil⟩, rfl⟩
  case case4 less erased _ _ _ marked =>
    intro ok
    obtain ⟨arg, _, arg_read, args_read⟩ := ok
    obtain ⟨xs, ahead, ⟨first⟩⟩ := sound.of_term arg_read
    obtain ⟨ys, args, ahead', ⟨others⟩, rfl⟩ := sound.of_arguments args_read
    refine ⟨_, _, ?_, ⟨.cons first others⟩, rfl⟩
    rw [List.append_assoc, List.append_assoc]
    exact (ahead_of_erasure marked).append (ahead.append ahead')

/-- Constructors that are found are derived, up to the closing brace, and have different names. -/
theorem constructors_step {seen : List String} {entries : Entries}
    (ok : constructors ar stop fuel scope seen tokens = .ok (entries, rest)) :
    ∃ xs, Ahead (xs ++ [.symbol "\x7d"]) tokens rest ∧
      Nonempty (Block ar ":" scope xs entries) ∧ entries.labels.Nodup ∧
      ∀ label ∈ entries.labels, label ∉ seen := by
  revert ok
  fun_cases constructors ar stop fuel scope seen tokens
  all_goals simp only [failure, reduceCtorEq, false_imp_iff, bind_ok_iff, name_ok_iff,
    Except.ok.injEq, Prod.mk.injEq, Prod.exists]
  case case2 less closes =>
    intro ok
    obtain ⟨rfl, rfl⟩ := ok
    exact ⟨_, ahead_of_atSymbol closes, ⟨.nil⟩, .nil, List.forall_mem_nil _⟩
  case case3 less _ =>
    intro ok
    obtain ⟨label, _, ⟨plain, self⟩, ok⟩ := ok
    split at ok
    · simp only [bind_ok_iff, reduceCtorEq, false_and, exists_false] at ok
    rename_i unseen
    rw [List.contains_iff_mem] at unseen
    simp only [bind_ok_iff, symbol_ok_iff, Prod.exists] at ok
    obtain ⟨_, colon, type, later, type_read, ok⟩ := ok
    obtain ⟨xs, ahead, ⟨first⟩⟩ := sound.of_term type_read
    split at ok
    · rename_i semicolon
      simp only [bind_ok_iff, pure_eq_ok, Except.ok.injEq, Prod.mk.injEq, Prod.exists] at ok
      obtain ⟨more, _, more_read, rfl, rfl⟩ := ok
      obtain ⟨ys, ahead', ⟨others⟩, nodup, others_unseen⟩ := sound.of_constructors more_read
      refine ⟨_, ahead_entry self colon ahead (ahead_of_atSymbol semicolon) ahead',
        ⟨.cons plain first others⟩, ?_, ?_⟩
      -- The labels behind this one were read as unlike any seen before, and it was seen.
      · exact List.nodup_cons.2 ⟨fun mem => others_unseen label mem List.mem_cons_self, nodup⟩
      · exact List.forall_mem_cons.2 ⟨unseen, fun other mem seen =>
          others_unseen other mem (List.mem_cons_of_mem _ seen)⟩
    · split at ok
      · rename_i closes
        simp only [pure_eq_ok, Except.ok.injEq, Prod.mk.injEq] at ok
        obtain ⟨rfl, rfl⟩ := ok
        exact ⟨_, self.cons (colon.cons (ahead.append (ahead_of_atSymbol closes))),
          ⟨.last plain first⟩, List.nodup_cons.2 ⟨List.not_mem_nil, .nil⟩,
          List.forall_mem_cons.2 ⟨unseen, List.forall_mem_nil _⟩⟩
      · cases ok

/-- Branches that are found are derived, up to the closing brace. -/
theorem branches_step {entries : Entries}
    (ok : branches ar stop fuel scope tokens = .ok (entries, rest)) :
    ∃ xs, Ahead (xs ++ [.symbol "\x7d"]) tokens rest ∧
      Nonempty (Block ar "=>" scope xs entries) := by
  revert ok
  fun_cases branches ar stop fuel scope tokens
  all_goals simp only [failure, reduceCtorEq, false_imp_iff, bind_ok_iff, name_ok_iff,
    symbol_ok_iff, Except.ok.injEq, Prod.mk.injEq, Prod.exists]
  case case2 less closes =>
    intro ok
    obtain ⟨rfl, rfl⟩ := ok
    exact ⟨_, ahead_of_atSymbol closes, ⟨.nil⟩⟩
  case case3 less _ =>
    intro ok
    obtain ⟨label, _, ⟨plain, self⟩, _, arrow, body, later, body_read, ok⟩ := ok
    obtain ⟨xs, ahead, ⟨first⟩⟩ := sound.of_term body_read
    split at ok
    · rename_i semicolon
      simp only [bind_ok_iff, pure_eq_ok, Except.ok.injEq, Prod.mk.injEq, Prod.exists] at ok
      obtain ⟨more, _, more_read, rfl, rfl⟩ := ok
      obtain ⟨ys, ahead', ⟨others⟩⟩ := sound.of_branches more_read
      exact ⟨_, ahead_entry self arrow ahead (ahead_of_atSymbol semicolon) ahead',
        ⟨.cons plain first others⟩⟩
    · split at ok
      · rename_i closes
        simp only [pure_eq_ok, Except.ok.injEq, Prod.mk.injEq] at ok
        obtain ⟨rfl, rfl⟩ := ok
        exact ⟨_, self.cons (arrow.cons (ahead.append (ahead_of_atSymbol closes))),
          ⟨.last plain first⟩⟩
      · cases ok

end Sound

/-- The readers find only what the grammar derives. -/
theorem sound (ar : Arith) (fuel : Nat) : Sound ar fuel := by
  induction fuel with
  | zero => constructor <;> simp [term, arguments, constructors, branches, failure]
  | succ fuel sound =>
      exact ⟨Sound.term_step sound, Sound.arguments_step sound, Sound.constructors_step sound,
        Sound.branches_step sound⟩

end BoxCalculus.Parser
