import BoxCalculus.Proofs.Cosmetics
import BoxCalculus.Proofs.RoundTrip.Writing
import BoxCalculus.Source.Parser

/-!
# Reading back written terms

The reader finds in the tokens of a written term the term itself, with its binders named as they were
written (`Reads`, `reads_pieces`).
-/

namespace BoxCalculus

mutual

/-- The term with its binders named as they are written. -/
def Term.freshen (avoid : List String) : Term → (scope : List String) → Term
  | .hole, _ => .hole
  | .var index, _ => .var index
  | .univ, _ => .univ
  | .ref name, _ => .ref name
  | .pi erased name dom cod, scope =>
      let name := freshName avoid scope name
      .pi erased name (dom.freshen avoid scope) (cod.freshen avoid (name :: scope))
  | .lam erased name dom body, scope =>
      let name := freshName avoid scope name
      .lam erased name (dom.freshen avoid scope) (body.freshen avoid (name :: scope))
  | .app erased fn arg, scope => .app erased (fn.freshen avoid scope) (arg.freshen avoid scope)
  | .sigma erased name fst snd, scope =>
      let name := freshName avoid scope name
      .sigma erased name (fst.freshen avoid scope) (snd.freshen avoid (name :: scope))
  | .pair erased type fst snd, scope =>
      .pair erased (type.freshen avoid scope) (fst.freshen avoid scope) (snd.freshen avoid scope)
  | .split erased scrutinee name motive fstName sndName body, scope =>
      let name := freshName avoid scope name
      let fstName := freshName avoid scope fstName
      let sndName := freshName avoid (fstName :: scope) sndName
      .split erased (scrutinee.freshen avoid scope) name (motive.freshen avoid (name :: scope))
        fstName sndName (body.freshen avoid (sndName :: fstName :: scope))
  | .data name type ctrs, scope =>
      let name := freshName avoid scope name
      .data name (type.freshen avoid scope) (ctrs.freshen avoid (name :: scope))
  | .ctr name type, scope => .ctr name (type.freshen avoid scope)
  | .caseOf type value name motive branches, scope =>
      let name := freshName avoid scope name
      .caseOf (type.freshen avoid scope) (value.freshen avoid scope) name
        (motive.freshen avoid (name :: scope)) (branches.freshen avoid scope)
  | .dup name value body, scope =>
      let name := freshName avoid scope name
      .dup name (value.freshen avoid scope) (body.freshen avoid (name :: scope))
  | .box value, scope => .box (value.freshen avoid scope)
  | .boxType type, scope => .boxType (type.freshen avoid scope)

/-- The entries with the binders in them named as they are written. -/
def Entries.freshen (avoid : List String) : Entries → (scope : List String) → Entries
  | .nil, _ => .nil
  | .cons label term rest, scope =>
      .cons label (term.freshen avoid scope) (rest.freshen avoid scope)

end

mutual

/-- Naming the binders as they are written changes nothing but their names. -/
@[simp] theorem Term.strip_freshen (mark : Bool → Bool) (avoid : List String) (t : Term)
    (scope : List String) : (t.freshen avoid scope).strip mark = t.strip mark := by
  cases t <;> simp [Term.freshen, Term.strip, Term.strip_freshen, Entries.strip_freshen]

/-- Naming binders in entries as they are written changes names only. -/
@[simp] theorem Entries.strip_freshen (mark : Bool → Bool) (avoid : List String)
    (entries : Entries) (scope : List String) :
    (entries.freshen avoid scope).strip mark = entries.strip mark := by
  cases entries <;> simp [Entries.freshen, Entries.strip, Term.strip_freshen, Entries.strip_freshen]

end

/-- Naming binders makes no gap. -/
@[simp] theorem Term.isHole_freshen (avoid : List String) (t : Term) (scope : List String) :
    (t.freshen avoid scope).isHole = t.isHole := by
  cases t <;> rfl

mutual

/-- A term whose binders are named as they are written is written as before. -/
@[simp] theorem Term.text_freshen (avoid : List String) (t : Term) (scope : List String)
    (inSpine : Bool) :
    (t.freshen avoid scope).text avoid scope inSpine = t.text avoid scope inSpine := by
  cases t <;> rw [Term.freshen, Term.text.eq_def] <;> conv_rhs => rw [Term.text.eq_def]
  all_goals simp [freshName_freshName, Term.text_freshen, Entries.texts_freshen]

/-- Entries are written alike when their binders have been named. -/
@[simp] theorem Entries.texts_freshen (avoid : List String) (separator : String)
    (entries : Entries) (scope : List String) :
    (entries.freshen avoid scope).texts avoid separator scope =
      entries.texts avoid separator scope := by
  cases entries <;>
    simp [Entries.freshen, Entries.texts, Term.text_freshen, Entries.texts_freshen]

end

/-- The scope has names that differ from each other and may be used. -/
structure Fresh (avoid scope : List String) : Prop where
  named : ∀ name ∈ scope, isName name = true
  apart : ∀ name ∈ scope, name ∉ avoid
  nodup : scope.Nodup

/-- The empty scope is fresh. -/
theorem Fresh.nil (avoid : List String) : Fresh avoid [] :=
  ⟨nofun, nofun, .nil⟩

/-- A fresh scope stays so with a fresh name. -/
theorem Fresh.cons {avoid scope : List String} (fresh : Fresh avoid scope) (name : String) :
    Fresh avoid (freshName avoid scope name :: scope) := by
  obtain ⟨named, avoided, bound⟩ := freshName_spec avoid scope name
  exact ⟨List.forall_mem_cons.2 ⟨named, fresh.named⟩, List.forall_mem_cons.2 ⟨avoided, fresh.apart⟩,
    .cons bound fresh.nodup⟩

/-- A word is placed as a token. -/
@[simp] theorem placed_word (pos : Pos) (text : String) (rest : List Piece) :
    placed pos (.word text :: rest) = ⟨.word text, pos⟩ :: placed (pos.past text.toList) rest := rfl

/-- A free variable is placed as a token. -/
@[simp] theorem placed_free (pos : Pos) (index : Nat) (rest : List Piece) :
    placed pos (.free index :: rest) = ⟨.free (toString index), pos⟩ ::
      placed (pos.past (Piece.free index).chars) rest := rfl

/-- A symbol is placed as a token. -/
@[simp] theorem placed_symbol (pos : Pos) (text : String) (rest : List Piece) :
    placed pos (.symbol text :: rest) = ⟨.symbol text, pos⟩ :: placed (pos.past text.toList) rest :=
  rfl

/-- A blank is no token, but takes a place. -/
@[simp] theorem placed_blank (pos : Pos) (rest : List Piece) :
    placed pos (.blank :: rest) = placed (pos.past [' ']) rest := rfl

/-- How many tokens the pieces are. -/
def tokenCount (pieces : List Piece) : Nat :=
  (pieces.filterMap Piece.lexeme?).length

/-- No pieces are no tokens. -/
@[simp] theorem tokenCount_nil : tokenCount [] = 0 := rfl

/-- A word is one token. -/
@[simp] theorem tokenCount_word (text : String) (rest : List Piece) :
    tokenCount (.word text :: rest) = tokenCount rest + 1 := rfl

/-- A free variable is one token. -/
@[simp] theorem tokenCount_free (index : Nat) (rest : List Piece) :
    tokenCount (.free index :: rest) = tokenCount rest + 1 := rfl

/-- A symbol is one token. -/
@[simp] theorem tokenCount_symbol (text : String) (rest : List Piece) :
    tokenCount (.symbol text :: rest) = tokenCount rest + 1 := rfl

/-- A blank is no token. -/
@[simp] theorem tokenCount_blank (rest : List Piece) :
    tokenCount (.blank :: rest) = tokenCount rest := rfl

/-- The tokens of two lists are counted together. -/
@[simp] theorem tokenCount_append (first second : List Piece) :
    tokenCount (first ++ second) = tokenCount first + tokenCount second := by
  simp [tokenCount]

/-- As many tokens are placed as are counted. -/
theorem length_placed (pos : Pos) (pieces : List Piece) :
    (placed pos pieces).length = tokenCount pieces := by
  induction pieces generalizing pos with
  | nil => rfl
  | cons piece rest ih => cases piece <;> simp [ih]

/-- The piece starts a term. -/
def Piece.starts : Piece → Bool
  | word _ | free _ => true
  | symbol text => ["\x7b", "[", "(", "<", "."].contains text
  | blank => false

/-- A written term starts with a token of its own. -/
theorem exists_first_piece (avoid : List String) {t : Term} (writable : Writable t)
    (scope : List String) (inSpine : Bool) :
    ∃ piece rest, t.pieces avoid scope inSpine = piece :: rest ∧ piece.starts = true := by
  induction writable generalizing inSpine with
  | var index =>
      rw [Term.pieces]
      split
      · exact ⟨_, _, rfl, rfl⟩
      · exact ⟨_, _, rfl, rfl⟩
  | app erased fn arg _ _ fn_ih =>
      cases inSpine with
      | false => exact ⟨.symbol "(", _, rfl, rfl⟩
      | true =>
          obtain ⟨piece, rest, first, starts⟩ := fn_ih true
          exact ⟨piece, _, by rw [Term.pieces, if_pos rfl, first, List.cons_append], starts⟩
  | _ => exact ⟨_, _, rfl, by rfl⟩

/-- A term is written with at least one token. -/
theorem tokenCount_pieces_pos (avoid : List String) {t : Term} (writable : Writable t)
    (scope : List String) (inSpine : Bool) : 0 < tokenCount (t.pieces avoid scope inSpine) := by
  obtain ⟨piece, rest, first, starts⟩ := exists_first_piece avoid writable scope inSpine
  rw [first]
  cases piece <;> simp_all [Piece.starts]

namespace Parser

/-- After a result, reading goes on. -/
@[simp] theorem ok_bind {α β : Type} (a : α) (f : α → Except SyntaxFault β) :
    (Except.ok a >>= f) = f a := rfl

/-- Reading nothing succeeds. -/
@[simp] theorem pure_eq_ok {α : Type} (a : α) : (pure a : Except SyntaxFault α) = .ok a := rfl

/-- A symbol that comes next is read. -/
@[simp] theorem symbol_cons (stop pos : Pos) (text : String) (rest : List Token) :
    symbol stop text (⟨.symbol text, pos⟩ :: rest) = .ok rest := by
  simp [symbol]

/-- A keyword that comes next is read. -/
@[simp] theorem keyword_cons (stop pos : Pos) (text : String) (rest : List Token) :
    keyword stop text (⟨.word text, pos⟩ :: rest) = .ok rest := by
  simp [keyword]

/-- A word that is no keyword is read as a name. -/
theorem name_word {text : String} (plain : text ∉ keywords) (stop pos : Pos) (rest : List Token) :
    name stop (⟨.word text, pos⟩ :: rest) = .ok (text, rest) := by
  simp [name, plain]

/-- A word that is no keyword is read as what it means in the scope. -/
theorem term_word {text : String} (plain : text ∉ keywords) (ar : Arith) (stop pos : Pos)
    (fuel : Nat) (scope : List String) (rest : List Token) :
    term ar stop (fuel + 1) scope (⟨.word text, pos⟩ :: rest) = .ok (resolve scope text, rest) := by
  unfold term
  simp only
  split
  all_goals first | exact absurd plain (by decide) | skip
  simp [plain]

/-- A name is no keyword. -/
theorem not_keyword {text : String} (named : isName text = true) : text ∉ keywords := by
  simpa using (Bool.and_eq_true_iff.1 named).2

/-- A name that comes next is read. -/
theorem name_cons {text : String} (named : isName text = true) (stop pos : Pos)
    (rest : List Token) : name stop (⟨.word text, pos⟩ :: rest) = .ok (text, rest) :=
  name_word (not_keyword named) stop pos rest

/-- A name is read as what it means in the scope. -/
theorem term_name {text : String} (named : isName text = true) (ar : Arith) (stop pos : Pos)
    (fuel : Nat) (scope : List String) (rest : List Token) :
    term ar stop (fuel + 1) scope (⟨.word text, pos⟩ :: rest) = .ok (resolve scope text, rest) :=
  term_word (not_keyword named) ar stop pos fuel scope rest

/-- A written term starts with neither a mark nor a closing parenthesis. -/
theorem atSymbol_pieces (avoid : List String) {t : Term} (writable : Writable t)
    (scope : List String) (inSpine : Bool) {text : String} (other : text = "-" ∨ text = ")")
    (pos : Pos) (rest : List Token) :
    atSymbol text (placed pos (t.pieces avoid scope inSpine) ++ rest) = false := by
  obtain ⟨piece, more, first, starts⟩ := exists_first_piece avoid writable scope inSpine
  rw [first]
  cases piece with
  | symbol start =>
      have differ : start ≠ text := by
        rintro rfl
        revert starts
        rcases other with rfl | rfl <;> decide
      simp [atSymbol, differ]
  | blank => cases starts
  | _ => simp [atSymbol]

/-- The mark that has been written is read, if no other follows. -/
theorem erasure_markPieces (erased : Bool) (pos : Pos) {rest : List Token}
    (other : atSymbol "-" rest = false) :
    erasure (placed pos (markPieces erased) ++ rest) = (erased, rest) := by
  cases erased with
  | false => simp [markPieces, erasure, other]
  | true => simp [markPieces, erasure, atSymbol]

/-- The mark before a word is read. -/
@[simp] theorem erasure_word (erased : Bool) (pos next : Pos) (text : String) (rest : List Token) :
    erasure (placed pos (markPieces erased) ++ ⟨.word text, next⟩ :: rest) =
      (erased, ⟨.word text, next⟩ :: rest) :=
  erasure_markPieces erased pos (by simp [atSymbol])

/-- The mark before a term is read. -/
theorem erasure_pieces {avoid : List String} {t : Term} (writable : Writable t)
    {scope : List String} {inSpine erased : Bool} {pos next : Pos} {rest : List Token} :
    erasure (placed pos (markPieces erased) ++
        (placed next (t.pieces avoid scope inSpine) ++ rest)) =
      (erased, placed next (t.pieces avoid scope inSpine) ++ rest) :=
  erasure_markPieces erased pos
    (atSymbol_pieces avoid writable scope inSpine (.inl rfl) next rest)

/-- Reading digits one by one gives their number. -/
theorem foldl_digits (digits : List Char) (start : Nat) :
    digits.foldl (fun (n : Int) c => 10 * n + (c.toNat - 48 : Nat)) (start : Int) =
      (Nat.ofDigitChars 10 digits start : Nat) := by
  induction digits generalizing start with
  | nil => simp
  | cons c rest ih =>
      rw [List.foldl_cons, Nat.ofDigitChars_cons]
      exact ih _

/-- A written index is read back. -/
theorem readIndex?_toString {index : Nat} (bound : index < 2 ^ 63) :
    readIndex? (toString index) = some (index : Int) := by
  have digits : (toString index).toList = Nat.toDigits 10 index := by
    rw [Nat.toString_eq_ofList_toDigits, String.toList_ofList]
  have value := foldl_digits (Nat.toDigits 10 index) 0
  rw [Nat.ofDigitChars_ten_toDigits, Int.natCast_zero] at value
  have small : (index : Int) < 2 ^ 63 := by omega
  have all : (Nat.toDigits 10 index).all Char.isDigit = true :=
    List.all_eq_true.2 fun c mem => Nat.isDigit_of_mem_toDigits (by omega) (by omega) mem
  rw [readIndex?, digits, if_pos all, value]
  exact if_pos small

/-- A name of the scope means the variable of its binder. -/
theorem resolve_scope {scope : List String} (nodup : scope.Nodup) {index : Nat} {name : String}
    (found : scope[index]? = some name) : resolve scope name = .var index := by
  obtain ⟨bound, rfl⟩ := List.getElem?_eq_some_iff.1 found
  have here : scope.idxOf? scope[index] = some index := by
    refine List.idxOf?_eq_some_iff.2 ⟨bound, rfl, fun j lower same => ?_⟩
    exact absurd ((nodup.getElem_inj_iff).1 same) (by omega)
  rw [resolve, here]

/-- A name that is not in scope is a reference. -/
theorem resolve_ref {scope : List String} {name : String} (free : name ∉ scope) :
    resolve scope name = .ref name := by
  rw [resolve, List.idxOf?_eq_none_iff.2 free]

/-- `Reads avoid t scope` says that the reader finds the term in its tokens. -/
def Reads (avoid : List String) (t : Term) (scope : List String) : Prop :=
  ∀ stop pos fuel rest, tokenCount (t.pieces avoid scope false) ≤ fuel →
    term .word stop fuel scope (placed pos (t.pieces avoid scope false) ++ rest) =
      .ok (t.freshen avoid scope, rest)

/-- `ReadsSpine avoid t scope` says that the reader finds the term at the start of a spine, and goes on
with the arguments after it. -/
def ReadsSpine (avoid : List String) (t : Term) (scope : List String) : Prop :=
  ∀ fuel, tokenCount (t.pieces avoid scope true) < fuel →
    ∃ more, fuel ≤ more + tokenCount (t.pieces avoid scope true) ∧ ∀ stop pos rest,
      (do
        let (fn, rest) ← term .word stop fuel scope
          (placed pos (t.pieces avoid scope true) ++ rest)
        arguments .word stop fuel scope fn rest) =
      arguments .word stop more scope (t.freshen avoid scope) rest

/-- With enough fuel the term is found in its tokens. -/
theorem Reads.eq {avoid : List String} {t : Term} {scope : List String} (reads : Reads avoid t scope)
    {stop pos : Pos} {fuel : Nat} {rest : List Token}
    (enough : tokenCount (t.pieces avoid scope false) ≤ fuel) :
    term .word stop fuel scope (placed pos (t.pieces avoid scope false) ++ rest) =
      .ok (t.freshen avoid scope, rest) :=
  reads stop pos fuel rest enough

/-- A term can be read if its first token can be passed. -/
theorem reads_of_succ {avoid : List String} {t : Term} {scope : List String}
    (positive : 0 < tokenCount (t.pieces avoid scope false))
    (step : ∀ {stop pos fuel rest}, tokenCount (t.pieces avoid scope false) ≤ fuel + 1 →
      term .word stop (fuel + 1) scope (placed pos (t.pieces avoid scope false) ++ rest) =
        .ok (t.freshen avoid scope, rest)) :
    Reads avoid t scope := by
  intro stop pos fuel rest enough
  obtain ⟨fuel, rfl⟩ : ∃ less, fuel = less + 1 := ⟨fuel - 1, by omega⟩
  exact step enough

/-- A term that is no application stands at the start of a spine as anywhere else. -/
theorem Reads.both {avoid : List String} {t : Term} {scope : List String}
    (reads : Reads avoid t scope) (same : t.pieces avoid scope true = t.pieces avoid scope false) :
    Reads avoid t scope ∧ ReadsSpine avoid t scope := by
  refine ⟨reads, fun fuel enough => ?_⟩
  rw [same] at enough ⊢
  refine ⟨fuel, Nat.le_add_right _ _, fun stop pos rest => ?_⟩
  rw [reads.eq (Nat.le_of_lt enough)]
  rfl

/-- A variable is found in its token. -/
theorem reads_var (avoid : List String) {index : Nat} (bound : index < 2 ^ 63)
    {scope : List String} (fresh : Fresh avoid scope) : Reads avoid (.var index) scope := by
  have positive := tokenCount_pieces_pos avoid (.var index bound) scope false
  refine reads_of_succ positive fun {stop pos fuel rest} enough => ?_
  cases found : scope[index]? with
  | some name =>
      have pieces : (Term.var index).pieces avoid scope false = [.word name] := by
        simp [Term.pieces, found]
      have named := fresh.named name (List.mem_of_getElem? found)
      simp [pieces, term_name named, resolve_scope fresh.nodup found, Term.freshen]
  | none =>
      have deep := List.getElem?_eq_none_iff.1 found
      have pieces : (Term.var index).pieces avoid scope false =
          [.free (index - scope.length)] := by
        simp [Term.pieces, found]
      rw [pieces]
      have sum : Arith.word.add ((index - scope.length : Nat) : Int) scope.length = index := by
        rw [Arith.word_add_eq] <;> omega
      have read : readIndex? (toString (index - scope.length)) =
          some ((index - scope.length : Nat) : Int) := readIndex?_toString (by omega)
      simp only [placed_free, placed_nil, List.cons_append, List.nil_append]
      rw [term, read]
      simp only [sum, Term.freshen]

/-- The arguments of a function go on with a written term. -/
theorem arguments_pieces {avoid scope : List String} {arg : Term} (reads : Reads avoid arg scope)
    (writable : Writable arg) {stop pos : Pos} {fuel : Nat} {fn : Term} {rest : List Token}
    (enough : tokenCount (arg.pieces avoid scope false) ≤ fuel) (erased : Bool) :
    arguments .word stop (fuel + 1) scope fn
        (placed pos (markPieces erased ++ arg.pieces avoid scope false) ++ rest) =
      arguments .word stop fuel scope (.app erased fn (arg.freshen avoid scope)) rest := by
  rw [placed_append, List.append_assoc]
  generalize pos.past (charsOf (markPieces erased)) = next
  have mark := atSymbol_pieces avoid writable scope false (.inl rfl) next rest
  have close := atSymbol_pieces avoid writable scope false (.inr rfl) next rest
  have closed : atSymbol ")" (placed pos (markPieces erased) ++
      (placed next (arg.pieces avoid scope false) ++ rest)) = false := by
    cases erased with
    | false => exact close
    | true => rfl
  have there : (placed pos (markPieces erased) ++
      (placed next (arg.pieces avoid scope false) ++ rest)).isEmpty = false := by
    have := tokenCount_pieces_pos avoid writable scope false
    have := length_placed next (arg.pieces avoid scope false)
    rw [List.isEmpty_eq_false_iff, ← List.length_pos_iff]
    simp only [List.length_append]
    omega
  rw [arguments, closed, there, erasure_markPieces erased pos mark]
  simp only [Bool.false_eq_true, if_false, reads.eq enough]
  rfl

/-- An application in a spine is read as one more argument. -/
theorem readsSpine_app {avoid : List String} (erased : Bool) {fn arg : Term} {scope : List String}
    (fn_reads : ReadsSpine avoid fn scope) (arg_reads : Reads avoid arg scope)
    (writable : Writable arg) : ReadsSpine avoid (.app erased fn arg) scope := by
  intro fuel enough
  have positive := tokenCount_pieces_pos avoid writable scope false
  have pieces : (Term.app erased fn arg).pieces avoid scope true = fn.pieces avoid scope true ++
      .blank :: (markPieces erased ++ arg.pieces avoid scope false) := by
    rw [Term.pieces, if_pos rfl]
  rw [pieces] at enough ⊢
  simp only [tokenCount_append, tokenCount_blank] at enough ⊢
  obtain ⟨more, left, reads⟩ := fn_reads fuel (by omega)
  obtain ⟨more, rfl⟩ : ∃ less, more = less + 1 := ⟨more - 1, by omega⟩
  refine ⟨more, by omega, fun stop pos rest => ?_⟩
  rw [placed_append, List.append_assoc, reads, placed_blank,
    arguments_pieces arg_reads writable (by omega)]
  rfl

/-- An application is found in its tokens if its spine is. -/
theorem reads_app {avoid : List String} {erased : Bool} {fn arg : Term} (writable : Writable (.app erased fn arg))
    {scope : List String} (reads : ReadsSpine avoid (.app erased fn arg) scope) :
    Reads avoid (.app erased fn arg) scope := by
  have positive := tokenCount_pieces_pos avoid writable scope false
  refine reads_of_succ positive fun {stop pos fuel rest} enough => ?_
  have pieces : (Term.app erased fn arg).pieces avoid scope false = .symbol "(" ::
      ((Term.app erased fn arg).pieces avoid scope true ++ [.symbol ")"]) := by
    simp [Term.pieces]
  rw [pieces] at enough ⊢
  simp only [tokenCount_append, tokenCount_symbol, tokenCount_nil] at enough
  obtain ⟨more, left, reads⟩ := reads fuel (by omega)
  obtain ⟨more, rfl⟩ : ∃ less, more = less + 1 := ⟨more - 1, by omega⟩
  simp only [placed_symbol, placed_append, placed_nil, List.append_assoc, List.cons_append, List.nil_append]
  rw [term, reads, arguments]
  simp [atSymbol]

/-- Entries need as many tokens as their first term and the others together, and the label. -/
theorem tokenCount_cons {avoid scope : List String} {separator label : String} {term : Term}
    {more : Entries} {fuel : Nat}
    (enough : tokenCount ((Entries.cons label term more).pieces avoid separator scope) ≤ fuel + 1) :
    tokenCount (term.pieces avoid scope false) ≤ fuel ∧
      (more ≠ .nil → tokenCount (more.pieces avoid separator scope) ≤ fuel) := by
  rw [Entries.pieces] at enough
  cases more with
  | nil =>
      simp [Entries.labels] at enough ⊢
      omega
  | cons next second more =>
      simp [Entries.labels] at enough ⊢
      omega

/-- Branches are read back if their bodies are. -/
theorem branches_pieces {avoid scope : List String} {stop : Pos} {rest : List Token} :
    ∀ {entries : Entries} {fuel : Nat} {pos : Pos},
    (∀ label ∈ entries.labels, isName label = true) →
    (∀ entry ∈ entries.toList, Reads avoid entry.2 scope) →
    tokenCount (entries.pieces avoid "=>" scope) ≤ fuel →
    branches .word stop fuel scope (placed pos (entries.pieces avoid "=>" scope) ++ rest) =
      .ok (entries.freshen avoid scope, rest)
  | .nil, 0, _, _, _, enough => by simp [Entries.pieces] at enough
  | .nil, fuel + 1, _, _, _, _ => by simp [Entries.pieces, branches, atSymbol, Entries.freshen]
  | .cons label term more, 0, _, _, _, enough => by simp [Entries.pieces] at enough
  | .cons label term more, fuel + 1, _, names, each, enough => by
      simp only [Entries.labels, Entries.toList, List.forall_mem_cons] at names each
      obtain ⟨first, others⟩ := tokenCount_cons enough
      rw [Entries.pieces]
      cases more with
      | nil =>
          simp [Entries.labels, placed_append, branches, atSymbol, name_cons names.1,
            each.1.eq first, Entries.freshen]
      | cons next second more =>
          rw [Entries.freshen]
          simp [Entries.labels, placed_append, branches, atSymbol, name_cons names.1,
            each.1.eq first, branches_pieces names.2 each.2 (others (by simp))]

/-- Constructors are read back if their types are, as long as each has a name of its own. -/
theorem constructors_pieces {avoid scope : List String} {stop : Pos} {rest : List Token} :
    ∀ {entries : Entries} {fuel : Nat} {pos : Pos} {seen : List String},
    (∀ label ∈ entries.labels, isName label = true) → (∀ label ∈ entries.labels, label ∉ seen) →
    entries.labels.Nodup → (∀ entry ∈ entries.toList, Reads avoid entry.2 scope) →
    tokenCount (entries.pieces avoid ":" scope) ≤ fuel →
    constructors .word stop fuel scope seen (placed pos (entries.pieces avoid ":" scope) ++ rest) =
      .ok (entries.freshen avoid scope, rest)
  | .nil, 0, _, _, _, _, _, _, enough => by simp [Entries.pieces] at enough
  | .nil, fuel + 1, _, _, _, _, _, _, _ => by
      simp [Entries.pieces, constructors, atSymbol, Entries.freshen]
  | .cons label term more, 0, _, _, _, _, _, _, enough => by simp [Entries.pieces] at enough
  | .cons label term more, fuel + 1, _, seen, names, unseen, nodup, each, enough => by
      simp only [Entries.labels, Entries.toList, List.forall_mem_cons, List.nodup_cons]
        at names unseen each nodup
      obtain ⟨first, others⟩ := tokenCount_cons enough
      rw [Entries.pieces]
      cases more with
      | nil =>
          simp [Entries.labels, placed_append, constructors, atSymbol, name_cons names.1, unseen.1,
            each.1.eq first, Entries.freshen]
      | cons next second more =>
          have later : ∀ other ∈ (Entries.cons next second more).labels, other ∉ label :: seen :=
            fun other mem => List.not_mem_cons_of_ne_of_not_mem
              (fun same => nodup.1 (same ▸ mem)) (unseen.2 other mem)
          rw [Entries.freshen]
          simp [Entries.labels, placed_append, constructors, atSymbol, name_cons names.1, unseen.1,
            each.1.eq first, constructors_pieces names.2 later nodup.2 each.2 (others (by simp))]

/-- The reader finds a written term in its tokens, also at the start of a spine. -/
theorem reads_pieces (avoid : List String) {t : Term} (writable : Writable t)
    (known : ∀ name ∈ t.refs, name ∈ avoid) {scope : List String} (fresh : Fresh avoid scope) :
    Reads avoid t scope ∧ ReadsSpine avoid t scope := by
  have binder {scope : List String} {name : String} := (freshName_spec avoid scope name).1
  induction writable generalizing scope with
  | var index bound => exact (reads_var avoid bound fresh).both rfl
  | univ =>
      refine (reads_of_succ (by simp [Term.pieces]) fun enough => ?_).both rfl
      simp [Term.pieces, term, Term.freshen]
  | ref name named =>
      have free : name ∉ scope := fun mem => fresh.apart name mem (known name List.mem_cons_self)
      refine (reads_of_succ (by simp [Term.pieces]) fun _ => ?_).both rfl
      simp [Term.pieces, term_name named, resolve_ref free, Term.freshen]
  | pi erased name dom cod dom_writable cod_writable dom_ih cod_ih =>
      simp only [Term.refs, List.forall_mem_append] at known
      refine (reads_of_succ (by simp [Term.pieces]) fun enough => ?_).both rfl
      simp [Term.pieces] at enough
      simp (disch := omega) [Term.pieces, placed_append, term, name_cons binder, Term.freshen,
        (dom_ih known.1 fresh).1.eq, (cod_ih known.2 (fresh.cons name)).1.eq]
  | bare erased name body body_writable body_ih =>
      simp only [Term.refs, List.nil_append] at known
      refine (reads_of_succ (by simp [Term.pieces]) fun enough => ?_).both rfl
      simp [Term.pieces, Term.isHole] at enough
      simp (disch := omega) [Term.pieces, Term.isHole, placed_append, term, atSymbol,
        name_cons binder, Term.freshen, (body_ih known (fresh.cons name)).1.eq]
  | lam erased name dom body dom_writable body_writable dom_ih body_ih =>
      simp only [Term.refs, List.forall_mem_append] at known
      refine (reads_of_succ (by simp [Term.pieces]) fun enough => ?_).both rfl
      simp [Term.pieces, dom_writable.isHole_eq] at enough
      simp (disch := omega) [Term.pieces, dom_writable.isHole_eq, placed_append, term, atSymbol,
        name_cons binder, Term.freshen, (dom_ih known.1 fresh).1.eq,
        (body_ih known.2 (fresh.cons name)).1.eq]
  | app erased fn arg fn_writable arg_writable fn_ih arg_ih =>
      simp only [Term.refs, List.forall_mem_append] at known
      have spine := readsSpine_app erased (fn_ih known.1 fresh).2 (arg_ih known.2 fresh).1
        arg_writable
      exact ⟨reads_app (.app erased fn arg fn_writable arg_writable) spine, spine⟩
  | sigma erased name fst snd fst_writable snd_writable fst_ih snd_ih =>
      simp only [Term.refs, List.forall_mem_append] at known
      refine (reads_of_succ (by simp [Term.pieces]) fun enough => ?_).both rfl
      simp [Term.pieces] at enough
      simp (disch := omega) [Term.pieces, placed_append, term, name_cons binder, Term.freshen,
        (fst_ih known.1 fresh).1.eq, (snd_ih known.2 (fresh.cons name)).1.eq]
  | pair erased type fst snd type_writable fst_writable snd_writable type_ih fst_ih snd_ih =>
      simp only [Term.refs, List.forall_mem_append] at known
      refine (reads_of_succ (by simp [Term.pieces]) fun enough => ?_).both rfl
      simp [Term.pieces] at enough
      simp (disch := omega) [Term.pieces, placed_append, term, erasure_pieces type_writable,
        Term.freshen, (type_ih known.1.1 fresh).1.eq, (fst_ih known.1.2 fresh).1.eq,
        (snd_ih known.2 fresh).1.eq]
  | split erased scrutinee name motive fstName sndName body scrutinee_writable motive_writable
      body_writable scrutinee_ih motive_ih body_ih =>
      simp only [Term.refs, List.forall_mem_append] at known
      refine (reads_of_succ (by simp [Term.pieces]) fun enough => ?_).both rfl
      simp [Term.pieces] at enough
      simp (disch := omega) [Term.pieces, placed_append, term, erasure_pieces scrutinee_writable,
        name_cons binder, Term.freshen, (scrutinee_ih known.1.1 fresh).1.eq,
        (motive_ih known.1.2 (fresh.cons name)).1.eq,
        (body_ih known.2 ((fresh.cons fstName).cons sndName)).1.eq]
  | data name type ctrs names nodup type_writable ctrs_writable type_ih ctrs_ih =>
      simp only [Term.refs, List.forall_mem_append, Entries.refs_eq_flatMap,
        List.forall_mem_flatMap] at known
      have each : ∀ entry ∈ ctrs.toList,
          Reads avoid entry.2 (freshName avoid scope name :: scope) :=
        fun entry mem => (ctrs_ih entry mem (known.2 entry mem) (fresh.cons name)).1
      refine (reads_of_succ (by simp [Term.pieces]) fun enough => ?_).both rfl
      simp [Term.pieces] at enough
      simp (disch := omega) [Term.pieces, placed_append, term, name_cons binder, Term.freshen,
        (type_ih known.1 fresh).1.eq, constructors_pieces names (fun _ _ => List.not_mem_nil) nodup each]
  | ctr name type named type_writable ih =>
      refine (reads_of_succ (by simp [Term.pieces]) fun enough => ?_).both rfl
      simp [Term.pieces] at enough
      simp (disch := omega) [Term.pieces, term, name_cons named, Term.freshen,
        (ih known fresh).1.eq]
  | caseOf type value name motive branches names type_writable value_writable motive_writable
      branches_writable type_ih value_ih motive_ih branches_ih =>
      simp only [Term.refs, List.forall_mem_append, Entries.refs_eq_flatMap,
        List.forall_mem_flatMap] at known
      have each : ∀ entry ∈ branches.toList, Reads avoid entry.2 scope :=
        fun entry mem => (branches_ih entry mem (known.2 entry mem) fresh).1
      refine (reads_of_succ (by simp [Term.pieces]) fun enough => ?_).both rfl
      simp [Term.pieces] at enough
      simp (disch := omega) [Term.pieces, placed_append, term, name_cons binder, Term.freshen,
        (type_ih known.1.1.1 fresh).1.eq, (value_ih known.1.1.2 fresh).1.eq,
        (motive_ih known.1.2 (fresh.cons name)).1.eq, branches_pieces names each]
  | dup name value body value_writable body_writable value_ih body_ih =>
      simp only [Term.refs, List.forall_mem_append] at known
      refine (reads_of_succ (by simp [Term.pieces]) fun enough => ?_).both rfl
      simp [Term.pieces] at enough
      simp (disch := omega) [Term.pieces, placed_append, term, name_cons binder, Term.freshen,
        (value_ih known.1 fresh).1.eq, (body_ih known.2 (fresh.cons name)).1.eq]
  | box value value_writable ih =>
      refine (reads_of_succ (by simp [Term.pieces]) fun enough => ?_).both rfl
      simp [Term.pieces] at enough
      simp (disch := omega) [Term.pieces, term, Term.freshen, (ih known fresh).1.eq]
  | boxType type type_writable ih =>
      refine (reads_of_succ (by simp [Term.pieces]) fun enough => ?_).both rfl
      simp [Term.pieces] at enough
      simp (disch := omega) [Term.pieces, term, Term.freshen, (ih known fresh).1.eq]

end Parser

/-- A term whose variables are indices has no negative variable. -/
theorem Writable.nonneg {t : Term} (writable : Writable t) (depth : Nat) :
    t.allVars (fun _ i => 0 ≤ i) depth = true := by
  induction writable generalizing depth with
  | data name type ctrs _ _ _ _ type_ih ctrs_ih =>
      simp only [Term.allVars, type_ih, Entries.allVars_eq_all, Bool.true_and, List.all_eq_true]
      exact fun entry mem => ctrs_ih entry mem _
  | caseOf type value name motive branches _ _ _ _ _ type_ih value_ih motive_ih branches_ih =>
      simp only [Term.allVars, type_ih, value_ih, motive_ih, Entries.allVars_eq_all, Bool.true_and,
        List.all_eq_true]
      exact fun entry mem => branches_ih entry mem _
  | _ => simp_all [Term.allVars]

/-- A term that can be written is printed. -/
theorem Writable.print?_eq {t : Term} (writable : Writable t) :
    t.print? = some (t.text t.refs [] false) := by
  simp [Term.print?, writable.isHole_eq, Term.nonneg, writable.nonneg]

/-- The reader finds in the written form of a term the term with its binders named as written. -/
theorem Writable.parseTerm_text {t : Term} (writable : Writable t) (file : String) :
    parseTerm .word file (t.text t.refs [] false) = .ok (t.freshen t.refs []) := by
  have legible : Legible (t.pieces t.refs [] false ++ []) :=
    legible_pieces t.refs writable (List.forall_mem_nil _) false clear_nil
  rw [List.append_nil] at legible
  have tokens := tokensFrom_placed legible (Pos.start file)
  rw [← chars_pieces t.refs writable] at tokens
  have enough : tokenCount (t.pieces t.refs [] false) ≤
      Parser.depth (placed (Pos.start file) (t.pieces t.refs [] false)) := by
    rw [Parser.depth, length_placed]
    omega
  have reads := (Parser.reads_pieces t.refs writable (fun _ mem => mem) (.nil t.refs)).1
  have read := reads ((Pos.start file).past (t.text t.refs [] false).toList) (Pos.start file) _ []
    enough
  rw [List.append_nil] at read
  simp [parseTerm, tokenize, tokens, Parser.closedTerm, read, Except.mapError]

/-- Naming binders keeps the references. -/
@[simp] theorem Term.refs_freshen (avoid : List String) (t : Term) (scope : List String) :
    (t.freshen avoid scope).refs = t.refs := by
  rw [← Term.refs_strip id, Term.strip_freshen, Term.refs_strip]

/-- Naming binders keeps the indices. -/
@[simp] theorem Term.nonneg_freshen (avoid : List String) (t : Term) (scope : List String) :
    (t.freshen avoid scope).nonneg = t.nonneg := by
  rw [Term.nonneg, ← Term.allVars_strip _ id, Term.strip_freshen, Term.allVars_strip, Term.nonneg]

/-- A term whose binders are named as they are written prints as before. -/
theorem Term.print?_freshen (t : Term) : (t.freshen t.refs []).print? = t.print? := by
  simp [Term.print?]

/-- Writing a term and reading it back gives the term, up to the names of its binders: the erasure
marks are those of the term, and so is the written form. -/
theorem parseTerm_print {t : Term} (sound : t.sound = true)
    (indexed : t.everywhere Term.indexed = true) (named : t.everywhere Term.named = true)
    (file : String) :
    ∃ text t', t.print? = some text ∧ parseTerm .word file text = .ok t' ∧ t.equal t' = true ∧
      t'.strip id = t.strip id ∧ t'.print? = some text := by
  have writable := writable_of_sound sound indexed named
  refine ⟨_, _, writable.print?_eq, writable.parseTerm_text file, ?_, Term.strip_freshen .., ?_⟩
  · rw [Term.equal_iff_strip, Term.strip_freshen]
  · rw [Term.print?_freshen, writable.print?_eq]

/-- A term that cannot keep the names of its binders: one has none, and one is called as a
reference below it. It has a free variable, and the domain of the inner lambda is missing. -/
def clashingNames : Term :=
  .lam true "" (.var 0) (.lam false "f" .hole (.app true (.ref "f") (.box (.var 1))))

/-- What is read back has the same shape and marks, and is printed alike. -/
theorem parseTerm_print_clashingNames :
    clashingNames.sound = true ∧ ∃ text t', clashingNames.print? = some text ∧
      parseTerm .word "" text = .ok t' ∧ clashingNames.equal t' = true ∧
      t'.strip id = clashingNames.strip id ∧ t'.print? = some text :=
  ⟨by decide, parseTerm_print (by decide) (by decide) (by decide +kernel) ""⟩

end BoxCalculus
