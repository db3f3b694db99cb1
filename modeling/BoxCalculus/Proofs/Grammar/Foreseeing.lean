import BoxCalculus.Proofs.Grammar.Predictive

/-!
# The readers of terms are predictive

Each rule of the written form starts with a lexeme of its own, and behind it the readers never go
back. So they are predictive (`Parser.foreseeing`): what they do is settled by the tokens that they
pass over and the one behind them.
-/

namespace BoxCalculus.Parser

open Reader

/-- The reader of terms fails at a lexeme that starts no term. -/
theorem refuses_term (ar : Arith) (scope : List String) {cost : Nat} {x : Lexeme}
    (other : Grammar.starts x = false) :
    Refuses (fun stop fuel tokens => term ar stop fuel scope tokens) cost [x] := by
  intro stop fuel tokens rest ahead _
  obtain ⟨pos, more, rfl, -⟩ := Ahead.cons_iff.1 ahead
  cases outcome : term ar stop fuel scope (⟨x, pos⟩ :: more) with
  | error fault => exact ⟨fault, outcome⟩
  | ok out =>
      obtain ⟨xs, ahead, ⟨derivation⟩⟩ := (sound ar fuel).of_term outcome
      obtain ⟨first, others, rfl, start⟩ := derivation.exists_first
      obtain ⟨_, _, same, -⟩ := Ahead.cons_iff.1 ahead
      cases same
      rw [other] at start
      cases start

/-- The reader of terms fails without tokens. -/
theorem exists_term_nil (ar : Arith) (scope : List String) (stop : Pos) (fuel : Nat) :
    ∃ fault, term ar stop fuel scope [] = .error fault := by
  cases fuel with
  | zero => exact ⟨_, by rw [term]; rfl⟩
  | succ fuel => exact ⟨_, by rw [term]; rfl⟩

/-- Some term can always be written. -/
theorem continues_term (ar : Arith) (scope : List String) :
    Continues (fun stop fuel tokens => term ar stop fuel scope tokens) 1 [] := by
  refine ⟨[.word "Type"], .univ, by decide, fun stop fuel tokens rest ahead enough => ?_⟩
  exact (complete ar fuel).term_eq .univ ahead (show 1 ≤ fuel by omega)

/-- With this much fuel the readers of terms are predictive. -/
structure Foreseeing (ar : Arith) (fuel : Nat) : Prop where
  term : ∀ scope, Predictive (fun stop fuel tokens => term ar stop fuel scope tokens) 1 fuel
  arguments : ∀ scope fn,
    Predictive (fun stop fuel tokens => arguments ar stop fuel scope fn tokens) 2 fuel
  constructors : ∀ scope seen,
    Predictive (fun stop fuel tokens => constructors ar stop fuel scope seen tokens) 2 fuel
  branches : ∀ scope, Predictive (fun stop fuel tokens => branches ar stop fuel scope tokens) 2 fuel

namespace Foreseeing

variable {ar : Arith} {fuel : Nat} (foreseeing : Foreseeing ar fuel) (scope : List String)

/-- A rule of the grammar, behind its first lexeme. -/
theorem explains_rule {q : Reader Term} {x : Lexeme} {stop pos : Pos} {rest : List Token}
    (enough : 2 * (rest.length + 1) + 1 ≤ fuel + 1)
    (eq : ∀ stop fuel pos rest,
      Parser.term ar stop (fuel + 1) scope (⟨x, pos⟩ :: rest) = q stop fuel rest)
    (predictive : q.Predictive 2 fuel) :
    Explains (fun stop fuel tokens => Parser.term ar stop fuel scope tokens) 1 stop
      (⟨x, pos⟩ :: rest) (Parser.term ar stop (fuel + 1) scope (⟨x, pos⟩ :: rest)) :=
  predictive.explains_token eq (Nat.le_refl 3) enough

include foreseeing

/-- A term that is part of another one. -/
theorem part : Predictive (fun stop fuel tokens => Parser.term ar stop fuel scope tokens) 2 fuel :=
  (foreseeing.term scope).mono (by omega)

section first

variable {stop pos : Pos} {rest : List Token} (enough : 2 * (rest.length + 1) + 1 ≤ fuel + 1)

include enough

/-- A term that starts with a keyword. -/
theorem explains_keyword {text : String} (reserved : text ∈ keywords) :
    Explains (fun stop fuel tokens => Parser.term ar stop fuel scope tokens) 1 stop
      (⟨.word text, pos⟩ :: rest)
      (Parser.term ar stop (fuel + 1) scope (⟨.word text, pos⟩ :: rest)) := by
  have continues := continues_term ar scope
  simp only [keywords, List.mem_cons, List.not_mem_nil, or_false] at reserved
  rcases reserved with rfl | rfl | rfl | rfl | rfl | rfl | rfl | rfl | rfl | rfl | rfl | rfl | rfl |
    rfl
  · -- `Type`
    exact explains_rule scope enough (fun _ _ _ _ => by rw [Parser.term]) (.pure _)
  · -- `Box`
    refine explains_rule scope enough (fun _ _ _ _ => by rw [Parser.term]) ?_
    exact (foreseeing.part _).bind fun type => .pure _
  · -- `box`
    refine explains_rule scope enough (fun _ _ _ _ => by rw [Parser.term]) ?_
    exact (foreseeing.part _).bind fun value => .pure _
  · -- `pair`
    refine explains_rule scope enough (fun _ _ _ _ => by rw [Parser.term]) ?_
    refine .mark (fun _ _ _ _ _ marked => by rw [marked]) (fun erased => ?_)
      (refuses_term ar scope rfl).bind
    exact (foreseeing.part _).bind fun type => (foreseeing.part _).bind fun fst =>
      (foreseeing.part _).bind fun snd => .pure _
  · -- `split`
    refine explains_rule scope enough (fun _ _ _ _ => by rw [Parser.term]) ?_
    refine .mark (fun _ _ _ _ _ marked => by rw [marked]) (fun erased => ?_)
      (refuses_term ar scope rfl).bind
    exact (foreseeing.part _).bind fun scrutinee => .keyword (by decide) <|
      predictive_name.bind fun self => .keyword (by decide) <|
      (foreseeing.part _).bind fun motive => .keyword (by decide) <|
      predictive_name.bind fun fstName => predictive_name.bind fun sndName =>
      .symbol (by decide) <| (foreseeing.part _).bind fun body => .pure _
  · exact explains_first .unexpected continues fun _ _ _ _ => by simp [Parser.term, keywords]
  · exact explains_first .unexpected continues fun _ _ _ _ => by simp [Parser.term, keywords]
  · exact explains_first .unexpected continues fun _ _ _ _ => by simp [Parser.term, keywords]
  · -- `case`
    refine explains_rule scope enough (fun _ _ _ _ => by rw [Parser.term]) ?_
    exact (foreseeing.part _).bind fun value => .keyword (by decide) <|
      (foreseeing.part _).bind fun type => .keyword (by decide) <|
      predictive_name.bind fun self => .keyword (by decide) <|
      (foreseeing.part _).bind fun motive => .symbol (by decide) <|
      (foreseeing.branches _).bind fun branches => .pure _
  · exact explains_first .unexpected continues fun _ _ _ _ => by simp [Parser.term, keywords]
  · -- `data`
    refine explains_rule scope enough (fun _ _ _ _ => by rw [Parser.term]) ?_
    exact predictive_name.bind fun self => .symbol (by decide) <|
      (foreseeing.part _).bind fun type => .symbol (by decide) <|
      (foreseeing.constructors _ _).bind fun ctrs => .pure _
  · -- `dup`
    refine explains_rule scope enough (fun _ _ _ _ => by rw [Parser.term]) ?_
    exact predictive_name.bind fun self => .symbol (by decide) <|
      (foreseeing.part _).bind fun value => .keyword (by decide) <|
      (foreseeing.part _).bind fun body => .pure _
  · -- `let`
    refine explains_rule scope enough (fun _ _ _ _ => by rw [Parser.term]) ?_
    exact predictive_name.bind fun self => .symbol (by decide) <|
      (foreseeing.part _).bind fun value => .keyword (by decide) <|
      (foreseeing.part _).bind fun body => .pure _
  · exact explains_first .unexpected continues fun _ _ _ _ => by simp [Parser.term, keywords]

/-- A term that starts with a symbol. -/
theorem explains_symbol (text : String) :
    Explains (fun stop fuel tokens => Parser.term ar stop fuel scope tokens) 1 stop
      (⟨.symbol text, pos⟩ :: rest)
      (Parser.term ar stop (fuel + 1) scope (⟨.symbol text, pos⟩ :: rest)) := by
  by_cases start : text ∈ ["\x7b", "[", "(", "<", "."]
  · simp only [List.mem_cons, List.not_mem_nil, or_false] at start
    rcases start with rfl | rfl | rfl | rfl | rfl
    · -- a function type
      refine explains_rule scope enough (fun _ _ _ _ => by rw [Parser.term]) ?_
      refine .mark (fun _ _ _ _ _ marked => by rw [marked]) (fun erased => ?_) refuses_name.bind
      exact predictive_name.bind fun self => .symbol (by decide) <|
        (foreseeing.part _).bind fun dom => .symbol (by decide) <|
        (foreseeing.part _).bind fun cod => .pure _
    · -- a lambda, with its domain or without it
      refine explains_rule scope enough (fun _ _ _ _ => by rw [Parser.term]) ?_
      refine .mark (fun _ _ _ _ _ marked => by rw [marked]) (fun erased => ?_) refuses_name.bind
      refine predictive_name.bind fun self => ?_
      show Predictive (fun stop fuel rest => if atSymbol ":" rest then _ else _) 2 fuel
      refine .choice (fun _ _ _ _ => by rw [if_pos atSymbol_self, List.tail_cons])
        (fun _ _ _ other => by rw [if_neg other]) ?_ ?_ (Nat.le_add_right 2 2) ?_
      · refine (foreseeing.part _).bind fun dom => ?_
        show Predictive (fun stop fuel rest => symbol stop "]" rest >>= _) 2 fuel
        exact .symbol (by decide) <| (foreseeing.part _).bind fun body => .pure _
      · refine (Predictive.pure _).bind fun dom => ?_
        show Predictive (fun stop fuel rest => symbol stop "]" rest >>= _) 2 fuel
        exact .symbol (by decide) <| (foreseeing.part _).bind fun body => .pure _
      · exact refuses_first fun _ _ _ _ => ⟨_, rfl⟩
    · -- an application
      refine explains_rule scope enough (fun _ _ _ _ => by rw [Parser.term]) ?_
      exact (foreseeing.part _).bind fun fn => foreseeing.arguments _ _
    · -- a pair type
      refine explains_rule scope enough (fun _ _ _ _ => by rw [Parser.term]) ?_
      refine .mark (fun _ _ _ _ _ marked => by rw [marked]) (fun erased => ?_) refuses_name.bind
      exact predictive_name.bind fun self => .symbol (by decide) <|
        (foreseeing.part _).bind fun fst => .symbol (by decide) <|
        (foreseeing.part _).bind fun snd => .pure _
    · -- a constructor
      refine explains_rule scope enough (fun _ _ _ _ => by rw [Parser.term]) ?_
      exact predictive_name.bind fun ctr => (foreseeing.part _).bind fun type => .pure _
  · refine explains_first .unexpected (continues_term ar scope) fun _ _ _ _ => ?_
    rw [Parser.term] <;> exact fun same => start (by simp [same])

end first

/-- The reader of terms is predictive if the readers of parts are. -/
theorem term_succ :
    Predictive (fun stop fuel tokens => Parser.term ar stop fuel scope tokens) 1 (fuel + 1) := by
  have continues := continues_term ar scope
  intro stop tokens enough
  rcases tokens with _ | ⟨⟨lexeme, pos⟩, rest⟩
  · show Explains _ _ _ _ (Parser.term ar stop (fuel + 1) scope [])
    rw [Parser.term]
    exact explains_failure continues (by simp)
  rw [List.length_cons] at enough
  cases lexeme with
  | eof => exact explains_first .unexpected continues fun _ _ _ _ => by rw [Parser.term]
  | free digits =>
      cases read : readIndex? digits with
      | some k =>
          exact explains_rule scope enough (fun _ _ _ _ => by rw [Parser.term, read]) (.pure _)
      | none =>
          refine explains_first (fun _ => .badFreeVariable digits) continues fun _ _ _ _ => ?_
          rw [Parser.term, read]
          rfl
  | word text =>
      by_cases reserved : text ∈ keywords
      · exact foreseeing.explains_keyword scope enough reserved
      · exact explains_rule scope enough (fun _ _ _ _ => term_word reserved ..) (.pure _)
  | symbol text => exact foreseeing.explains_symbol scope enough text

/-- The reader of arguments is predictive if the readers of parts are. -/
theorem arguments_succ (fn : Term) :
    Predictive (fun stop fuel tokens => Parser.arguments ar stop fuel scope fn tokens) 2
      (fuel + 1) := by
  refine .step (fun _ _ _ => by rw [Parser.arguments]) ?_
  refine .choice (fun _ _ _ _ => by rw [if_pos atSymbol_self, List.tail_cons])
    (fun _ _ _ other => by rw [if_neg other]) (.pure fn) ?_ (Nat.le_add_right 1 2) ?_
  · refine .nonempty (.expected ")") (fun _ _ => rfl) (fun _ _ _ some => by rw [if_neg some]) ?_ ?_
    · refine .mark (fun _ _ _ _ _ marked => by rw [marked]) (fun erased => ?_)
        (refuses_term ar scope rfl).bind
      -- The arguments behind the first one may cost more, since it takes a token.
      refine (foreseeing.term scope).bind_of_continues (fun takes => ?_)
        (fun arg => foreseeing.arguments scope _) fun arg => ?_
      · have positive := takes.length_pos (exists_term_nil ar scope)
        omega
      · refine ⟨[.symbol ")"], .app erased fn arg, by decide, ?_⟩
        intro stop fuel tokens rest ahead enough
        obtain ⟨pos, _, rfl, last⟩ := Ahead.cons_iff.1 ahead
        obtain rfl := Ahead.nil_iff.1 last
        rw [List.length_cons] at enough
        exact (complete ar fuel).arguments_eq .nil (.nil _) (show 0 < fuel by omega)
    · intro stop fuel
      obtain ⟨fault, fails⟩ := exists_term_nil ar scope stop fuel
      refine ⟨fault, ?_⟩
      show (Parser.term ar stop fuel scope [] >>= _) = _
      rw [fails]
      rfl
  · intro stop fuel tokens rest ahead enough
    obtain ⟨pos, more, rfl, -⟩ := Ahead.cons_iff.1 ahead
    obtain ⟨fault, fails⟩ : ∃ fault,
        Parser.term ar stop fuel scope (⟨.symbol ")", pos⟩ :: more) = .error fault :=
      refuses_term ar scope rfl ahead enough
    refine ⟨fault, ?_⟩
    show (Parser.term ar stop fuel scope (⟨.symbol ")", pos⟩ :: more) >>= _) = _
    rw [fails]
    rfl

/-- The reader of constructors is predictive if the readers of parts are. -/
theorem constructors_succ (seen : List String) :
    Predictive (fun stop fuel tokens => Parser.constructors ar stop fuel scope seen tokens) 2
      (fuel + 1) := by
  refine .step (fun _ _ _ => by rw [Parser.constructors]) ?_
  refine .choice (fun _ _ _ _ => by rw [if_pos atSymbol_self, List.tail_cons])
    (fun _ _ _ other => by rw [if_neg other]) (.pure _) ?_ (Nat.le_add_right 1 2) refuses_name.bind
  refine .newName seen (fun _ _ _ _ _ named new => by rw [named]; exact if_neg new)
    (fun _ _ _ _ _ named old => by rw [named]; exact if_pos old)
    (fun _ _ _ _ error => by rw [error]; rfl) fun label => ?_
  show Predictive (fun stop fuel rest => symbol stop ":" rest >>= _) 1 fuel
  refine .symbol (by decide) <| (foreseeing.term _).bind fun type => ?_
  show Predictive (fun stop fuel rest => if atSymbol ";" rest then _ else _) 1 fuel
  refine .entryEnd _ (fun _ _ _ _ => by rw [if_pos atSymbol_self, List.tail_cons])
    (fun _ _ _ other => by rw [if_neg other]; rfl) ?_
  exact (foreseeing.constructors _ _).bind fun more => .pure _

/-- The reader of branches is predictive if the readers of parts are. -/
theorem branches_succ :
    Predictive (fun stop fuel tokens => Parser.branches ar stop fuel scope tokens) 2
      (fuel + 1) := by
  refine .step (fun _ _ _ => by rw [Parser.branches]) ?_
  refine .choice (fun _ _ _ _ => by rw [if_pos atSymbol_self, List.tail_cons])
    (fun _ _ _ other => by rw [if_neg other]) (.pure _) ?_ (Nat.le_add_right 1 2) refuses_name.bind
  refine predictive_name.bind fun label => ?_
  refine .symbol (by decide) <| (foreseeing.term _).bind fun body => ?_
  show Predictive (fun stop fuel rest => if atSymbol ";" rest then _ else _) 1 fuel
  refine .entryEnd _ (fun _ _ _ _ => by rw [if_pos atSymbol_self, List.tail_cons])
    (fun _ _ _ other => by rw [if_neg other]; rfl) ?_
  exact (foreseeing.branches _).bind fun more => .pure _

end Foreseeing

/-- The readers of terms are predictive. -/
theorem foreseeing (ar : Arith) (fuel : Nat) : Foreseeing ar fuel := by
  induction fuel with
  | zero =>
      -- There is no fuel for any tokens.
      constructor <;> intros <;> intro stop tokens enough <;> omega
  | succ fuel foreseeing =>
      exact ⟨foreseeing.term_succ, foreseeing.arguments_succ, foreseeing.constructors_succ,
        foreseeing.branches_succ⟩

end BoxCalculus.Parser
