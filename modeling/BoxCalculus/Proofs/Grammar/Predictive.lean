import BoxCalculus.Proofs.Grammar.Soundness
import BoxCalculus.Proofs.Lexing

/-!
# Readers that fail where they have to

A reader is predictive (`Reader.Predictive`) if what it does on some tokens is settled by the tokens
that it passes over and the one behind them. Where it succeeds, it would do the same whatever comes
behind the tokens that it has taken. Where it fails, it points at the first token that is out of
place: some lexemes would do in place of this token and all behind it, but none do behind the token.

Reading one lexeme is predictive (`predictive_one`), and so are readers that are put together from
others: one after the other (`Predictive.bind`), behind a lexeme (`Predictive.expect`), or chosen by
the next symbol (`Predictive.choice`).
-/

namespace BoxCalculus

/-- Nothing stands ahead where there are no tokens. -/
theorem Ahead.eq_nil {xs : List Lexeme} {rest : List Token} (ahead : Ahead xs [] rest) : xs = [] := by
  have length := ahead.length_eq
  rw [List.length_nil] at length
  exact List.length_eq_zero_iff.1 (by omega)

/-- The first of the lexemes that stand ahead decides whether a symbol comes next. -/
theorem Ahead.atSymbol_eq {xs : List Lexeme} {tokens tokens' rest rest' : List Token}
    (ahead : Ahead xs tokens rest) (ahead' : Ahead xs tokens' rest') (some : xs ≠ [])
    (text : String) : Parser.atSymbol text tokens = Parser.atSymbol text tokens' := by
  cases xs with
  | nil => exact absurd rfl some
  | cons x xs =>
      obtain ⟨_, _, rfl, _⟩ := Ahead.cons_iff.1 ahead
      obtain ⟨_, _, rfl, _⟩ := Ahead.cons_iff.1 ahead'
      rfl

namespace Parser

/-- Tokens that start with a symbol are at it. -/
theorem atSymbol_self {text : String} {pos : Pos} {rest : List Token} :
    atSymbol text (⟨.symbol text, pos⟩ :: rest) = true := by
  simp [atSymbol]

/-- After a fault nothing is read. -/
theorem error_bind {α β : Type} (fault : SyntaxFault) (f : α → Except SyntaxFault β) :
    (Except.error fault >>= f) = .error fault := rfl

/-- A reader finds something at the front of some tokens. It is given the place where the source
ends, and fuel. -/
abbrev Reader (α : Type) := Pos → Nat → List Token → Except SyntaxFault (α × List Token)

namespace Reader

variable {α β : Type} {p : Reader α} {cost cost' fuel : Nat} {xs : List Lexeme} {a : α}

/-- The reader takes the lexemes and finds `a`, whatever comes behind them. The fuel has to be enough
for all tokens. -/
def Takes (p : Reader α) (cost : Nat) (xs : List Lexeme) (a : α) : Prop :=
  ∀ ⦃stop fuel tokens rest⦄, Ahead xs tokens rest → 2 * tokens.length + cost ≤ fuel →
    p stop fuel tokens = .ok (a, rest)

/-- The reader fails on the lexemes, whatever comes behind them. -/
def Refuses (p : Reader α) (cost : Nat) (xs : List Lexeme) : Prop :=
  ∀ ⦃stop fuel tokens rest⦄, Ahead xs tokens rest → 2 * tokens.length + cost ≤ fuel →
    ∃ fault, p stop fuel tokens = .error fault

/-- With some more lexemes, which can be written, the reader takes these. -/
def Continues (p : Reader α) (cost : Nat) (xs : List Lexeme) : Prop :=
  ∃ more a, (∀ x ∈ more, x.writable = true) ∧ p.Takes cost (xs ++ more) a

/-- The tokens that have been passed over settle the outcome, for a failure with the next one. -/
def Explains (p : Reader α) (cost : Nat) (stop : Pos) (tokens : List Token) :
    Except SyntaxFault (α × List Token) → Prop
  | .ok (a, rest) => ∃ xs, Ahead xs tokens rest ∧ p.Takes cost xs a
  | .error fault => ∃ xs rest, Ahead xs tokens rest ∧ fault.pos = (next stop rest).pos ∧
      p.Continues cost xs ∧ ∀ token ∈ rest.head?, p.Refuses cost (xs ++ [token.lexeme])

/-- The outcome is settled in this way for all tokens that the fuel is enough for. -/
def Predictive (p : Reader α) (cost fuel : Nat) : Prop :=
  ∀ ⦃stop tokens⦄, 2 * tokens.length + cost ≤ fuel →
    p.Explains cost stop tokens (p stop fuel tokens)

/-- What is settled for a reader is settled for one that goes on like it behind some lexemes. -/
theorem Explains.behind {q : Reader α} {stop : Pos} {tokens rest : List Token}
    {out : Except SyntaxFault (α × List Token)} (explains : q.Explains cost' stop rest out)
    (ahead : Ahead xs tokens rest)
    (takes : ∀ {ys a}, q.Takes cost' ys a → p.Takes cost (xs ++ ys) a)
    (refuses : ∀ {ys later}, ys ≠ [] → Ahead ys rest later → q.Refuses cost' ys →
      p.Refuses cost (xs ++ ys)) : p.Explains cost stop tokens out := by
  cases out with
  | ok out =>
      obtain ⟨ys, ahead', here⟩ := explains
      exact ⟨xs ++ ys, ahead.append ahead', takes here⟩
  | error fault =>
      obtain ⟨ys, last, ahead', place, ⟨more, a, writable, here⟩, never⟩ := explains
      refine ⟨xs ++ ys, last, ahead.append ahead', place, ⟨more, a, writable, ?_⟩, ?_⟩
      · rw [List.append_assoc]
        exact takes here
      · intro token first
        obtain ⟨more, rfl⟩ := List.head?_eq_some_iff.1 first
        rw [List.append_assoc]
        exact refuses (by simp) (ahead'.append (.token (.nil more))) (never token first)

/-- A predictive reader stays so when it may take more fuel. -/
theorem Predictive.mono (predictive : p.Predictive cost fuel) (le : cost ≤ cost') :
    p.Predictive cost' fuel := by
  intro stop tokens enough
  refine (@predictive stop tokens (by omega)).behind (.nil tokens) (fun takes => ?_)
    fun _ _ refuses => ?_
  · exact fun _ _ _ _ ahead enough => takes ahead (by omega)
  · exact fun _ _ _ _ ahead enough => refuses ahead (by omega)

/-- A predictive reader can be satisfied. -/
theorem Predictive.continues (predictive : p.Predictive cost fuel) (enough : cost ≤ fuel) :
    p.Continues cost [] := by
  have explains := @predictive default [] (by simpa using enough)
  cases outcome : p default fuel [] with
  | ok out =>
      rw [outcome] at explains
      obtain ⟨xs, ahead, takes⟩ := explains
      obtain rfl := ahead.eq_nil
      exact ⟨[], out.1, List.forall_mem_nil _, takes⟩
  | error fault =>
      rw [outcome] at explains
      obtain ⟨xs, rest, ahead, -, continues, -⟩ := explains
      obtain rfl := ahead.eq_nil
      exact continues

/-- A reader that fails without tokens takes at least one. -/
theorem Takes.length_pos (takes : p.Takes cost xs a)
    (hungry : ∀ stop fuel, ∃ fault, p stop fuel [] = .error fault) : 0 < xs.length := by
  rw [List.length_pos_iff]
  rintro rfl
  obtain ⟨fault, fails⟩ := hungry default cost
  rw [takes (.nil []) (by simp)] at fails
  cases fails

/-! ## Leaves -/

/-- Failing at a lexeme, before anything else is read. -/
theorem refuses_first {x : Lexeme}
    (fails : ∀ stop fuel pos rest, ∃ fault, p stop fuel (⟨x, pos⟩ :: rest) = .error fault) :
    p.Refuses cost [x] := by
  intro stop fuel tokens rest ahead _
  obtain ⟨pos, more, rfl, -⟩ := Ahead.cons_iff.1 ahead
  exact fails stop fuel pos more

/-- Finding something without a token. -/
theorem Predictive.pure (a : α) : Predictive (fun _ _ tokens => .ok (a, tokens)) cost fuel := by
  intro stop tokens _
  refine ⟨[], .nil tokens, fun _ _ _ _ ahead _ => ?_⟩
  rw [Ahead.nil_iff.1 ahead]

/-- Failing at the next token. -/
theorem explains_failure {stop : Pos} {tokens : List Token} {problem : Lexeme → SyntaxProblem}
    (continues : p.Continues cost [])
    (refuses : ∀ token ∈ tokens.head?, p.Refuses cost [token.lexeme]) :
    p.Explains cost stop tokens (failure stop tokens problem) :=
  ⟨[], tokens, .nil _, rfl, continues, refuses⟩

/-- The reader of one lexeme out of some. -/
def one (accept : Lexeme → Option α) (problem : Lexeme → SyntaxProblem) : Reader α :=
  fun stop _ tokens =>
    match tokens with
    | [] => failure stop tokens problem
    | token :: rest =>
        match accept token.lexeme with
        | some a => .ok (a, rest)
        | none => failure stop tokens problem

section one

variable {accept : Lexeme → Option α} {problem : Lexeme → SyntaxProblem} {x : Lexeme}

/-- A lexeme that is accepted is taken. -/
theorem takes_one (accepted : accept x = some a) : (one accept problem).Takes cost [x] a := by
  intro stop fuel tokens rest ahead _
  simp only [Ahead.cons_iff, Ahead.nil_iff] at ahead
  obtain ⟨pos, _, rfl, rfl⟩ := ahead
  simp only [one, accepted]

/-- A lexeme that is not accepted is refused. -/
theorem refuses_one (refused : accept x = none) : (one accept problem).Refuses cost [x] := by
  refine refuses_first fun stop fuel pos more => ⟨⟨pos, problem x⟩, ?_⟩
  simp only [one, refused, failure, next]

/-- Reading one lexeme is predictive if some lexeme that can be written is accepted. -/
theorem predictive_one (writable : x.writable = true) (accepted : accept x = some a) :
    (one accept problem).Predictive cost fuel := by
  have continues : (one accept problem).Continues cost [] :=
    ⟨[x], a, List.forall_mem_singleton.2 writable, takes_one accepted⟩
  intro stop tokens _
  cases tokens with
  | nil => exact explains_failure continues (by simp)
  | cons token rest =>
      cases found : accept token.lexeme with
      | some b =>
          simp only [one, found]
          exact ⟨[token.lexeme], .token (.nil rest), takes_one found⟩
      | none =>
          simp only [one, found]
          refine explains_failure continues fun other first => ?_
          obtain rfl : token = other := by simpa using first
          exact refuses_one found

end one

/-! ## One reader after the other -/

/-- What the first of two readers fails on, both fail on. -/
theorem Refuses.bind
    {f : Pos → Nat → List Token → α × List Token → Except SyntaxFault (β × List Token)}
    (refuses : p.Refuses cost xs) :
    Refuses (fun stop fuel tokens => p stop fuel tokens >>= f stop fuel tokens) cost xs := by
  intro stop fuel tokens rest ahead enough
  obtain ⟨fault, fails⟩ := @refuses stop fuel tokens rest ahead enough
  exact ⟨fault, by simp only [fails, error_bind]⟩

section bind

variable {f : Pos → Nat → α × List Token → Except SyntaxFault (β × List Token)}

/-- The second reader may cost more by what the first one takes. -/
theorem Predictive.bind_of_continues (first : p.Predictive cost fuel)
    (lighter : ∀ {xs a}, p.Takes cost xs a → cost' ≤ cost + 2 * xs.length)
    (second : ∀ a, Predictive (fun stop fuel rest => f stop fuel (a, rest)) cost' fuel)
    (continues : ∀ a, Continues (fun stop fuel rest => f stop fuel (a, rest)) cost' []) :
    Predictive (fun stop fuel tokens => p stop fuel tokens >>= f stop fuel) cost fuel := by
  have takes {xs ys a b} (here : p.Takes cost xs a)
      (there : Takes (fun stop fuel rest => f stop fuel (a, rest)) cost' ys b) :
      Takes (fun stop fuel tokens => p stop fuel tokens >>= f stop fuel) cost (xs ++ ys) b := by
    intro stop fuel tokens rest ahead enough
    obtain ⟨middle, ahead, ahead'⟩ := Ahead.append_iff.1 ahead
    have length := ahead.length_eq
    have light := lighter here
    simp only [here ahead enough, ok_bind]
    exact there ahead' (by omega)
  intro stop tokens enough
  have explains := @first stop tokens enough
  cases outcome : p stop fuel tokens with
  | ok out =>
      rw [outcome] at explains
      obtain ⟨xs, ahead, here⟩ := explains
      have length := ahead.length_eq
      have light := lighter here
      have later := @second out.1 stop out.2 (by omega)
      simp only [outcome, ok_bind]
      refine later.behind ahead (takes here) fun _ _ never => ?_
      intro stop fuel tokens rest ahead enough
      obtain ⟨middle, ahead, ahead'⟩ := Ahead.append_iff.1 ahead
      have length := ahead.length_eq
      simp only [here ahead enough, ok_bind]
      exact never ahead' (by omega)
  | error fault =>
      rw [outcome] at explains
      obtain ⟨xs, rest, ahead, place, ⟨more, a, writable, here⟩, never⟩ := explains
      -- What satisfies the first reader is followed by something that satisfies the second.
      obtain ⟨more', b, writable', there⟩ := continues a
      simp only [outcome]
      refine ⟨xs, rest, ahead, place, ⟨more ++ more', b, ?_, ?_⟩, ?_⟩
      · exact List.forall_mem_append.2 ⟨writable, writable'⟩
      · rw [← List.append_assoc]
        exact takes here there
      · exact fun token first => (never token first).bind

/-- A predictive reader followed by others is predictive. -/
theorem Predictive.bind (first : p.Predictive cost fuel)
    (second : ∀ a, Predictive (fun stop fuel rest => f stop fuel (a, rest)) cost fuel) :
    Predictive (fun stop fuel tokens => p stop fuel tokens >>= f stop fuel) cost fuel := by
  intro stop tokens enough
  exact first.bind_of_continues (fun _ => by omega) second
    (fun a => (second a).continues (by omega)) enough

end bind

/-! ## Readers that go on as another one -/

section token

variable {q : Reader α} {x : Lexeme} {k : Nat}
  (eq : ∀ stop fuel pos rest, p stop (fuel + k) (⟨x, pos⟩ :: rest) = q stop fuel rest)
  (le : cost' + k ≤ cost + 2)

include eq le

/-- A reader that goes on behind a lexeme takes the lexeme and what the other takes. -/
theorem Takes.token {ys : List Lexeme} (takes : q.Takes cost' ys a) : p.Takes cost (x :: ys) a := by
  intro stop fuel tokens rest ahead enough
  obtain ⟨pos, more, rfl, later⟩ := Ahead.cons_iff.1 ahead
  rw [List.length_cons] at enough
  obtain ⟨fuel, rfl⟩ : ∃ n, fuel = n + k := ⟨fuel - k, by omega⟩
  rw [eq]
  exact takes later (by omega)

/-- A reader that goes on behind a lexeme refuses behind it what the other refuses. -/
theorem Refuses.token {ys : List Lexeme} (refuses : q.Refuses cost' ys) :
    p.Refuses cost (x :: ys) := by
  intro stop fuel tokens rest ahead enough
  obtain ⟨pos, more, rfl, later⟩ := Ahead.cons_iff.1 ahead
  rw [List.length_cons] at enough
  obtain ⟨fuel, rfl⟩ : ∃ n, fuel = n + k := ⟨fuel - k, by omega⟩
  rw [eq]
  exact refuses later (by omega)

/-- Behind a lexeme, and with `k` units of fuel less, a reader goes on as another one. -/
theorem Predictive.explains_token {stop pos : Pos} {rest : List Token}
    (predictive : q.Predictive cost' fuel) (enough : 2 * (rest.length + 1) + cost ≤ fuel + k) :
    p.Explains cost stop (⟨x, pos⟩ :: rest) (p stop (fuel + k) (⟨x, pos⟩ :: rest)) := by
  rw [eq]
  exact (@predictive stop rest (by omega)).behind (.token (.nil rest)) (.token eq le)
    fun _ _ => .token eq le

end token

/-- With a unit of fuel less, a reader goes on as another one. -/
theorem Predictive.step {q : Reader α}
    (eq : ∀ stop fuel tokens, p stop (fuel + 1) tokens = q stop fuel tokens)
    (predictive : q.Predictive cost fuel) : p.Predictive (cost + 1) (fuel + 1) := by
  intro stop tokens enough
  rw [eq]
  refine (@predictive stop tokens (by omega)).behind (.nil tokens) (fun takes => ?_)
    fun _ _ refuses => ?_
  · intro stop fuel tokens rest ahead enough
    obtain ⟨fuel, rfl⟩ : ∃ n, fuel = n + 1 := ⟨fuel - 1, by omega⟩
    rw [eq]
    exact takes ahead (by omega)
  · intro stop fuel tokens rest ahead enough
    obtain ⟨fuel, rfl⟩ : ∃ n, fuel = n + 1 := ⟨fuel - 1, by omega⟩
    rw [eq]
    exact refuses ahead (by omega)

/-- A reader that fails at its first lexeme as soon as it has fuel. -/
theorem explains_first {x : Lexeme} (problem : Lexeme → SyntaxProblem) {stop pos : Pos}
    {rest : List Token} (continues : p.Continues cost [])
    (eq : ∀ stop fuel pos rest,
      p stop (fuel + 1) (⟨x, pos⟩ :: rest) = failure stop (⟨x, pos⟩ :: rest) problem) :
    p.Explains cost stop (⟨x, pos⟩ :: rest) (p stop (fuel + 1) (⟨x, pos⟩ :: rest)) := by
  rw [eq]
  refine explains_failure continues fun token first => ?_
  obtain rfl : ⟨x, pos⟩ = token := by simpa using first
  intro stop fuel tokens rest ahead enough
  obtain ⟨pos, more, rfl, -⟩ := Ahead.cons_iff.1 ahead
  rw [List.length_cons] at enough
  obtain ⟨fuel, rfl⟩ : ∃ n, fuel = n + 1 := ⟨fuel - 1, by omega⟩
  exact ⟨_, eq stop fuel pos more⟩

/-! ## Symbols, keywords and names -/

section

variable {f g q : Reader α} {text : String} (problem : Lexeme → SyntaxProblem)

/-- A choice by the next symbol. -/
theorem Predictive.choice
    (eq_taken : ∀ stop fuel pos rest, q stop fuel (⟨.symbol text, pos⟩ :: rest) = f stop fuel rest)
    (eq_other : ∀ stop fuel tokens, ¬ atSymbol text tokens = true →
      q stop fuel tokens = g stop fuel tokens)
    (taken : f.Predictive cost' fuel) (other : g.Predictive cost fuel) (le : cost' ≤ cost + 2)
    (apart : g.Refuses cost [.symbol text]) : q.Predictive cost fuel := by
  intro stop tokens enough
  by_cases here : atSymbol text tokens = true
  · obtain ⟨pos, rest, rfl, -⟩ := Ahead.cons_iff.1 (ahead_of_atSymbol here)
    exact taken.explains_token (k := 0) eq_taken le enough
  · rw [eq_other _ _ _ here]
    refine (@other stop tokens enough).behind (.nil _) (fun takes => ?_) fun there start refuses => ?_
    · intro stop fuel tokens rest ahead enough
      by_cases symbol : atSymbol text tokens = true
      · -- The other reader would fail here, and it does not.
        obtain ⟨fault, fails⟩ := @apart stop fuel _ _ (ahead_of_atSymbol symbol) enough
        rw [takes ahead enough] at fails
        cases fails
      · rw [eq_other _ _ _ symbol]
        exact takes ahead enough
    · intro stop fuel tokens' rest ahead enough
      have same : atSymbol text tokens' = atSymbol text tokens := ahead.atSymbol_eq start there text
      rw [eq_other _ _ _ (by rwa [same])]
      exact refuses ahead enough

/-- A reader that passes over a lexeme and goes on as another one, and fails at any other token. -/
theorem Predictive.expect {x : Lexeme} (second : f.Predictive cost fuel) (writable : x.writable = true)
    (eq_taken : ∀ stop fuel pos rest, q stop fuel (⟨x, pos⟩ :: rest) = f stop fuel rest)
    (eq_other : ∀ stop fuel tokens, (∀ token ∈ tokens.head?, token.lexeme ≠ x) →
      q stop fuel tokens = failure stop tokens problem) : q.Predictive cost fuel := by
  intro stop tokens enough
  by_cases here : ∀ token ∈ tokens.head?, token.lexeme ≠ x
  · obtain ⟨more, a, all, later⟩ := second.continues (by omega)
    rw [eq_other _ _ _ here]
    refine explains_failure ⟨x :: more, a, List.forall_mem_cons.2 ⟨writable, all⟩,
      .token (k := 0) eq_taken (by omega) later⟩ ?_
    intro token first
    have other : token.lexeme ≠ x := here token first
    exact refuses_first fun stop fuel pos more =>
      ⟨_, eq_other stop fuel (⟨token.lexeme, pos⟩ :: more) (by simpa using other)⟩
  · obtain ⟨pos, rest, rfl⟩ : ∃ pos rest, tokens = ⟨x, pos⟩ :: rest := by
      cases tokens with
      | nil => exact absurd (by simp) here
      | cons token rest =>
          obtain rfl : token.lexeme = x := by simpa using here
          exact ⟨token.pos, rest, rfl⟩
    exact second.explains_token (k := 0) eq_taken (by omega) enough

/-- Expecting a symbol before a predictive reader is predictive. -/
theorem Predictive.symbol (writable : (Lexeme.symbol text).writable = true)
    (second : f.Predictive cost fuel) :
    Predictive (fun stop fuel tokens => symbol stop text tokens >>= f stop fuel) cost fuel := by
  refine second.expect (.expected text) writable (fun _ _ _ _ => by simp [Parser.symbol])
    fun stop fuel tokens here => ?_
  cases tokens with
  | nil => rfl
  | cons token rest =>
      have other : token.lexeme ≠ .symbol text := here token rfl
      simp only [Parser.symbol, if_neg other, failure, error_bind]

/-- Expecting a keyword before a predictive reader is predictive. -/
theorem Predictive.keyword (writable : (Lexeme.word text).writable = true)
    (second : f.Predictive cost fuel) :
    Predictive (fun stop fuel tokens => keyword stop text tokens >>= f stop fuel) cost fuel := by
  refine second.expect (.expected text) writable (fun _ _ _ _ => by simp [Parser.keyword])
    fun stop fuel tokens here => ?_
  cases tokens with
  | nil => rfl
  | cons token rest =>
      have other : token.lexeme ≠ .word text := here token rfl
      simp only [Parser.keyword, if_neg other, failure, error_bind]

/-- A symbol that has to come next, with a message of its own. -/
theorem Predictive.closing
    (eq_taken : ∀ stop fuel pos rest, q stop fuel (⟨.symbol text, pos⟩ :: rest) = f stop fuel rest)
    (eq_other : ∀ stop fuel tokens, ¬ atSymbol text tokens = true →
      q stop fuel tokens = failure stop tokens problem)
    (writable : (Lexeme.symbol text).writable = true) (second : f.Predictive cost fuel) :
    q.Predictive cost fuel := by
  refine second.expect problem writable eq_taken fun stop fuel tokens here => eq_other _ _ _ ?_
  cases tokens with
  | nil => simp [atSymbol]
  | cons token rest => simpa [atSymbol] using here

/-- What comes behind an entry of a block: a `;` and other entries, or the brace that closes it. -/
theorem Predictive.entryEnd (a : α)
    (eq_more : ∀ stop fuel pos rest, q stop fuel (⟨.symbol ";", pos⟩ :: rest) = f stop fuel rest)
    (eq_last : ∀ stop fuel tokens, ¬ atSymbol ";" tokens = true → q stop fuel tokens =
      if atSymbol "\x7d" tokens then .ok (a, tokens.tail)
      else failure stop tokens .separatorExpected)
    (more : f.Predictive 2 fuel) : q.Predictive 1 fuel := by
  refine .choice eq_more eq_last more ?_ (Nat.le_add_right 2 1) (refuses_first fun _ _ _ _ => ⟨_, rfl⟩)
  exact .closing .separatorExpected (fun _ _ _ _ => by rw [if_pos atSymbol_self, List.tail_cons])
    (fun _ _ _ other => by rw [if_neg other]) (by decide) (.pure a)

/-- An optional mark in front. -/
theorem Predictive.mark {f : Pos → Nat → Bool → List Token → Except SyntaxFault (α × List Token)}
    (eq : ∀ stop fuel tokens erased rest, erasure tokens = (erased, rest) →
      q stop fuel tokens = f stop fuel erased rest)
    (both : ∀ erased, Predictive (fun stop fuel rest => f stop fuel erased rest) cost fuel)
    (apart : Refuses (fun stop fuel rest => f stop fuel false rest) cost [.symbol "-"]) :
    q.Predictive cost fuel :=
  .choice (fun _ _ _ _ => eq _ _ _ _ _ (if_pos atSymbol_self))
    (fun _ _ _ other => eq _ _ _ _ _ (if_neg other)) (both true) (both false) (by omega) apart

/-- Another message for tokens that are missing. -/
theorem Predictive.nonempty (eq_nil : ∀ stop fuel, q stop fuel [] = failure stop [] problem)
    (eq_some : ∀ stop fuel tokens, ¬ tokens.isEmpty = true →
      q stop fuel tokens = f stop fuel tokens)
    (predictive : f.Predictive cost fuel)
    (hungry : ∀ stop fuel, ∃ fault, f stop fuel [] = .error fault) : q.Predictive cost fuel := by
  have takes {ys a} (here : f.Takes cost ys a) : q.Takes cost ys a := by
    intro stop fuel tokens rest ahead enough
    have some : ¬ tokens.isEmpty = true := by
      have length := ahead.length_eq
      have positive := here.length_pos hungry
      rw [List.isEmpty_iff_length_eq_zero]
      omega
    rw [eq_some _ _ _ some]
    exact here ahead enough
  intro stop tokens enough
  cases tokens with
  | nil =>
      obtain ⟨more, a, writable, here⟩ := predictive.continues (by simpa using enough)
      rw [eq_nil]
      exact explains_failure ⟨more, a, writable, takes here⟩ (by simp)
  | cons token rest =>
      rw [eq_some stop fuel (token :: rest) Bool.false_ne_true]
      refine (@predictive stop _ enough).behind (.nil _) takes fun some _ refuses => ?_
      intro stop fuel tokens rest ahead enough
      have there : ¬ tokens.isEmpty = true := by
        intro none
        rw [List.isEmpty_iff.1 none] at ahead
        exact some ahead.eq_nil
      rw [eq_some _ _ _ there]
      exact refuses ahead enough

/-- The name that a lexeme is, if it is one and has not been seen. -/
def nameOutside (seen : List String) : Lexeme → Option String
  | .word text => if text ∈ keywords ∨ text ∈ seen then none else some text
  | _ => none

/-- Reading a name is reading one lexeme out of some. -/
theorem name_eq_one :
    (fun stop _ tokens => name stop tokens) = one (nameOutside []) .nameExpected := by
  funext stop _ tokens
  rcases tokens with _ | ⟨⟨lexeme, pos⟩, rest⟩
  · rfl
  · cases lexeme with
    | word text => by_cases reserved : text ∈ keywords <;> simp [name, one, nameOutside, reserved]
    | _ => rfl

/-- Reading a name is predictive. -/
theorem predictive_name : Predictive (fun stop _ tokens => name stop tokens) cost fuel := by
  rw [name_eq_one]
  exact predictive_one (x := .word "x") (a := "x") (by decide) (by decide)

/-- A symbol is no name. -/
theorem refuses_name : Refuses (fun stop _ tokens => name stop tokens) cost [.symbol text] := by
  rw [name_eq_one]
  exact refuses_one rfl

/-- A name that has not been seen, where the reader goes on with it. A seen one is refused, and there
is always one that has not been seen. -/
theorem Predictive.newName (seen : List String)
    {f : Pos → Nat → String → List Token → Except SyntaxFault (α × List Token)}
    (eq_new : ∀ stop fuel tokens text rest, name stop tokens = .ok (text, rest) →
      ¬ seen.contains text = true → q stop fuel tokens = f stop fuel text rest)
    (eq_seen : ∀ stop fuel tokens text rest, name stop tokens = .ok (text, rest) →
      seen.contains text = true →
      q stop fuel tokens = .error ⟨(next stop tokens).pos, .duplicateConstructor text⟩)
    (eq_error : ∀ stop fuel tokens fault, name stop tokens = .error fault →
      q stop fuel tokens = .error fault)
    (second : ∀ text, Predictive (fun stop fuel rest => f stop fuel text rest) cost fuel) :
    q.Predictive cost fuel := by
  let problem : Lexeme → SyntaxProblem := fun x =>
    ((nameOutside [] x).map .duplicateConstructor).getD (.nameExpected x)
  have same : q = fun stop fuel tokens =>
      one (nameOutside seen) problem stop fuel tokens >>= fun out => f stop fuel out.1 out.2 := by
    funext stop fuel tokens
    rcases tokens with _ | ⟨⟨lexeme, pos⟩, rest⟩
    · exact eq_error _ _ _ _ rfl
    · cases lexeme with
      | word text =>
          by_cases reserved : text ∈ keywords
          · refine (eq_error _ _ _ ⟨pos, .nameExpected (.word text)⟩ ?_).trans ?_
            · simp [name, reserved, failure, next]
            · simp [one, nameOutside, problem, reserved, failure, next, error_bind]
          · have named := name_word reserved stop pos rest
            by_cases old : text ∈ seen
            · rw [eq_seen _ _ _ _ _ named (by simpa using old)]
              simp [one, nameOutside, problem, reserved, old, failure, next, error_bind]
            · rw [eq_new _ _ _ _ _ named (by simpa using old)]
              simp [one, nameOutside, reserved, old]
      | _ => exact eq_error _ _ _ _ rfl
  obtain ⟨named, new, -⟩ := freshName_spec seen [] "x"
  rw [isName, Bool.and_eq_true] at named
  rw [same]
  refine (predictive_one (x := .word (freshName seen [] "x")) (a := freshName seen [] "x")
    named.1 ?_).bind fun text => second text
  simpa [nameOutside, new] using named.2

end

end Reader

end Parser

end BoxCalculus
