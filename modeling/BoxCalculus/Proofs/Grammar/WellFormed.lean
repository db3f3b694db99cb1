import BoxCalculus.Proofs.Gaps
import BoxCalculus.Proofs.Grammar.Derivations
import BoxCalculus.Proofs.RoundTrip.Writing
import BoxCalculus.Proofs.Unfolding

/-!
# What the grammar derives is well formed

A term is `Formed` if at most domains of lambdas are missing in it, all its names can be written and
no declaration in it has two constructors of one name. This is the case for every term that the
grammar derives from lexemes whose words have the form of words (`Derivation.formed`), as those of a
source text do (`spelled_of_tokensFrom`).
-/

namespace BoxCalculus

open Term (Everywhere)

/-- The names that the term itself uses or binds. -/
def Term.names : Term → List String
  | .hole | .var _ | .univ | .app _ _ _ | .pair _ _ _ _ | .box _ | .boxType _ => []
  | .ref name | .ctr name _ => [name]
  | .pi _ name _ _ | .lam _ name _ _ | .sigma _ name _ _ | .dup name _ _ => [name]
  | .split _ _ name _ fstName sndName _ => [name, fstName, sndName]
  | .data name _ ctrs => name :: ctrs.labels
  | .caseOf _ _ name _ branches => name :: branches.labels

/-- The names of the constructors that the term itself declares. -/
def Term.declares : Term → List String
  | .data _ _ ctrs => ctrs.labels
  | _ => []

/-- The term itself could be written by a rule of the grammar: its parts are there, except for the
domain of a lambda, and so are its names. -/
structure Term.FormedHere (t : Term) : Prop where
  there : t.partsThere = true
  names : ∀ name ∈ t.names, isName name = true
  distinct : t.declares.Nodup

/-- The term is there, and each term in it is formed. -/
def Term.Formed (t : Term) : Prop :=
  t.isHole = false ∧ Everywhere FormedHere t

namespace Term

variable {t value : Term}

/-- Replacing variables in a compound term keeps the names that it uses itself. -/
theorem names_bindVars (f : Nat → Int → Term) (depth : Nat) (compound : ∀ i, t ≠ var i) :
    (t.bindVars f depth).names = t.names := by
  cases t with
  | var i => exact absurd rfl (compound i)
  | _ => simp [bindVars, names, Entries.bindVars_eq_map]

/-- Replacing variables in a compound term keeps the names that it declares. -/
theorem declares_bindVars (f : Nat → Int → Term) (depth : Nat) (compound : ∀ i, t ≠ var i) :
    (t.bindVars f depth).declares = t.declares := by
  cases t with
  | var i => exact absurd rfl (compound i)
  | _ => simp [bindVars, declares, Entries.bindVars_eq_map]

/-- Replacing variables by terms that are there keeps a compound term formed. -/
theorem formedHere_bindVars {f : Nat → Int → Term} (there : ∀ k i, (f k i).isHole = false)
    (depth : Nat) (compound : ∀ i, t ≠ var i) (formed : t.FormedHere) :
    (t.bindVars f depth).FormedHere := by
  have parted : Parted (fun p q => q.isHole = p.isHole) t (t.bindVars f depth) := by
    refine ⟨_, ?_, bindVars_eq_withParts f depth compound⟩
    rw [List.forall₂_map_right_iff, List.forall₂_same]
    exact fun part _ => isHole_bindVars there _ _
  exact ⟨(partsThere_of_parted parted).trans formed.there,
    names_bindVars f depth compound ▸ formed.names,
    declares_bindVars f depth compound ▸ formed.distinct⟩

/-- A variable is formed. -/
theorem formed_var (i : Int) : (var i).Formed :=
  ⟨rfl, .intro ⟨rfl, List.forall_mem_nil _, .nil⟩ (List.forall_mem_nil _)⟩

namespace Formed

/-- Replacing variables by formed terms. -/
theorem bindVars {f : Nat → Int → Term} (placed : ∀ k i, (f k i).Formed) {depth : Nat}
    (all : Everywhere FormedHere t) : Everywhere FormedHere (t.bindVars f depth) := by
  induction t using Term.byParts generalizing depth with
  | step t ih =>
      by_cases isVar : ∃ i, t = .var i
      · obtain ⟨i, rfl⟩ := isVar
        exact (placed depth i).2
      · rw [not_exists] at isVar
        refine .intro (formedHere_bindVars (fun k i => (placed k i).1) depth isVar all.here) ?_
        rw [parts_bindVars f depth isVar, List.forall_mem_map]
        exact fun part mem => ih part mem (all.part mem)

/-- Replacing variables by formed terms keeps a term formed. -/
theorem of_bindVars {f : Nat → Int → Term} (placed : ∀ k i, (f k i).Formed) (formed : t.Formed)
    (depth : Nat) : (t.bindVars f depth).Formed :=
  ⟨(isHole_bindVars (fun k i => (placed k i).1) depth t).trans formed.1,
    bindVars placed formed.2⟩

/-- Shifting keeps a term formed. -/
theorem shift (formed : t.Formed) (ar : Arith) (delta cutoff : Int) :
    (t.shift ar delta cutoff).Formed := by
  refine formed.of_bindVars (fun k i => ?_) 0
  split
  · exact formed_var _
  · exact formed_var _

/-- Substitution of a formed value keeps a term formed. -/
theorem subst (formed : t.Formed) (values : value.Formed) (ar : Arith) (target : Int) :
    (t.subst ar value target).Formed := by
  refine formed.of_bindVars (fun k i => ?_) 0
  dsimp only
  split
  · exact values.shift ar _ _
  · split
    · exact formed_var _
    · exact formed_var _

/-- At most domains of lambdas are missing in a formed term. -/
theorem sound (formed : t.Formed) : t.sound = true :=
  sound_iff.2 ⟨formed.1, formed.2.imp fun _ here => here.there⟩

/-- The names in a formed term can be written. -/
theorem named (formed : t.Formed) : t.everywhere Term.named = true := by
  refine everywhere_iff_everywhere.2 (formed.2.imp fun u here => ?_)
  obtain ⟨-, names, distinct⟩ := here
  cases u <;> simp_all [Term.named, Term.names, Term.declares]

/-- A form other than a lambda is formed if its parts are. -/
theorem of_parts (there : t.isHole = false) (other : t.isLam = false)
    (parts : ∀ part ∈ t.parts, part.2.Formed) (names : ∀ name ∈ t.names, isName name = true)
    (distinct : t.declares.Nodup := by exact .nil) : t.Formed := by
  refine ⟨there, .intro ⟨?_, names, distinct⟩ fun part mem => (parts part mem).2⟩
  rw [partsThere_eq other, List.all_eq_true]
  exact fun part mem => by rw [(parts part mem).1]; rfl

/-- A lambda is formed if its name and its body are, and its domain is missing or formed. -/
theorem lam {erased : Bool} {name : String} {dom body : Term} (name_ok : isName name = true)
    (dom_formed : dom = .hole ∨ dom.Formed) (body_formed : body.Formed) :
    (Term.lam erased name dom body).Formed := by
  refine ⟨rfl, .intro ⟨?_, ?_, .nil⟩ ?_⟩
  · rw [partsThere, body_formed.1]
    rfl
  · exact List.forall_mem_singleton.2 name_ok
  · have dom_all : Everywhere FormedHere dom := by
      rcases dom_formed with rfl | formed
      · exact .intro ⟨rfl, List.forall_mem_nil _, .nil⟩ (List.forall_mem_nil _)
      · exact formed.2
    exact List.forall_mem_cons.2 ⟨dom_all, List.forall_mem_singleton.2 body_formed.2⟩

/-- A spine is formed if the head and the arguments are. -/
theorem apply {args : List (Bool × Term)} (formed : t.Formed) (all : ∀ arg ∈ args, arg.2.Formed) :
    (t.apply args).Formed := by
  induction args generalizing t with
  | nil => exact formed
  | cons arg args ih =>
      rw [List.forall_mem_cons] at all
      refine ih (of_parts rfl rfl ?_ (List.forall_mem_nil _)) all.2
      simp [parts, formed, all.1]

end Formed

end Term

namespace Grammar

/-- A word has the form of one. -/
def spelled : Lexeme → Bool
  | .word text => isWord text
  | _ => true

/-- The words among the lexemes have the form of words. -/
def Spelled (xs : List Lexeme) : Prop :=
  ∀ x ∈ xs, spelled x = true

/-- A word that is no keyword is a name. -/
theorem isName_of_spelled {name : String} (word : spelled (.word name) = true)
    (plain : name ∉ keywords) : isName name = true := by
  rw [isName, Bool.and_eq_true]
  exact ⟨word, by simpa using plain⟩

open Term

mutual

/-- A term that the grammar derives is formed. -/
theorem Derivation.formed {ar : Arith} : ∀ {scope : List String} {xs : List Lexeme} {t : Term},
    Derivation ar scope xs t → Spelled xs → t.Formed
  | _, _, _, .univ, _ => .of_parts rfl rfl (List.forall_mem_nil _) (List.forall_mem_nil _)
  | _, _, _, .free _ _, _ => formed_var _
  | _, _, _, .bound _ _, _ => formed_var _
  | _, _, _, .reference plain _, words => by
      simp only [Spelled, List.forall_mem_singleton] at words
      refine .of_parts rfl rfl (List.forall_mem_nil _) ?_
      exact List.forall_mem_singleton.2 (isName_of_spelled words plain)
  | _, _, _, .pi plain first second, words => by
      simp only [Spelled, List.forall_mem_cons, List.forall_mem_append] at words
      obtain ⟨-, -, word, -, words, -, words'⟩ := words
      refine .of_parts rfl rfl ?_ ?_
      · simp [parts, first.formed words, second.formed words']
      · exact List.forall_mem_singleton.2 (isName_of_spelled word plain)
  | _, _, _, .lam plain first second, words => by
      simp only [Spelled, List.forall_mem_cons, List.forall_mem_append] at words
      obtain ⟨-, -, word, -, words, -, words'⟩ := words
      exact .lam (isName_of_spelled word plain) (.inr (first.formed words)) (second.formed words')
  | _, _, _, .bare plain inner, words => by
      simp only [Spelled, List.forall_mem_cons, List.forall_mem_append] at words
      obtain ⟨-, -, word, -, words⟩ := words
      exact .lam (isName_of_spelled word plain) (.inl rfl) (inner.formed words)
  | _, _, _, .spine first others, words => by
      simp only [Spelled, List.forall_mem_cons, List.forall_mem_append] at words
      obtain ⟨-, words, words', -⟩ := words
      exact (first.formed words).apply (others.formed words')
  | _, _, _, .sigma plain first second, words => by
      simp only [Spelled, List.forall_mem_cons, List.forall_mem_append] at words
      obtain ⟨-, -, word, -, words, -, words'⟩ := words
      refine .of_parts rfl rfl ?_ ?_
      · simp [parts, first.formed words, second.formed words']
      · exact List.forall_mem_singleton.2 (isName_of_spelled word plain)
  | _, _, _, .pair first second third, words => by
      simp only [Spelled, List.forall_mem_cons, List.forall_mem_append] at words
      obtain ⟨-, -, words, words', words''⟩ := words
      refine .of_parts rfl rfl ?_ (List.forall_mem_nil _)
      simp [parts, first.formed words, second.formed words', third.formed words'']
  | _, _, _, .split plain fst_plain snd_plain first second third, words => by
      simp only [Spelled, List.forall_mem_cons, List.forall_mem_append] at words
      obtain ⟨-, -, words, -, word, -, words', -, fst_word, snd_word, -, words''⟩ := words
      refine .of_parts rfl rfl ?_ ?_
      · simp [parts, first.formed words, second.formed words', third.formed words'']
      · simp [names, isName_of_spelled word plain, isName_of_spelled fst_word fst_plain,
          isName_of_spelled snd_word snd_plain]
  | _, _, _, .data plain nodup first block, words => by
      simp only [Spelled, List.forall_mem_cons, List.forall_mem_append] at words
      obtain ⟨-, word, -, words, -, words', -⟩ := words
      obtain ⟨labels, all⟩ := block.formed words'
      refine .of_parts rfl rfl ?_ ?_ nodup
      · simp only [parts, List.forall_mem_append, List.forall_mem_map, List.forall_mem_singleton]
        exact ⟨all, first.formed words⟩
      · exact List.forall_mem_cons.2 ⟨isName_of_spelled word plain, labels⟩
  | _, _, _, .ctr plain inner, words => by
      simp only [Spelled, List.forall_mem_cons] at words
      obtain ⟨-, word, words⟩ := words
      refine .of_parts rfl rfl ?_ ?_
      · simp [parts, inner.formed words]
      · exact List.forall_mem_singleton.2 (isName_of_spelled word plain)
  | _, _, _, .caseOf plain first second third block, words => by
      simp only [Spelled, List.forall_mem_cons, List.forall_mem_append] at words
      obtain ⟨-, words, -, words', -, word, -, words'', -, entries, -⟩ := words
      obtain ⟨labels, all⟩ := block.formed entries
      refine .of_parts rfl rfl ?_ ?_
      · simp only [parts, List.forall_mem_append, List.forall_mem_cons, List.forall_mem_map]
        exact ⟨⟨second.formed words', first.formed words, third.formed words'',
          List.forall_mem_nil _⟩, all⟩
      · exact List.forall_mem_cons.2 ⟨isName_of_spelled word plain, labels⟩
  | _, _, _, .dup plain first second, words => by
      simp only [Spelled, List.forall_mem_cons, List.forall_mem_append] at words
      obtain ⟨-, word, -, words, -, words'⟩ := words
      refine .of_parts rfl rfl ?_ ?_
      · simp [parts, first.formed words, second.formed words']
      · exact List.forall_mem_singleton.2 (isName_of_spelled word plain)
  | _, _, _, .letIn _ first second, words => by
      simp only [Spelled, List.forall_mem_cons, List.forall_mem_append] at words
      obtain ⟨-, -, -, words, -, words'⟩ := words
      -- The name of a local definition need not be written: it is gone.
      exact (second.formed words').subst (first.formed words) ar 0
  | _, _, _, .box inner, words => by
      rw [Spelled, List.forall_mem_cons] at words
      refine .of_parts rfl rfl ?_ (List.forall_mem_nil _)
      simp [parts, inner.formed words.2]
  | _, _, _, .boxType inner, words => by
      rw [Spelled, List.forall_mem_cons] at words
      refine .of_parts rfl rfl ?_ (List.forall_mem_nil _)
      simp [parts, inner.formed words.2]

/-- Arguments that are derived are formed. -/
theorem Arguments.formed {ar : Arith} : ∀ {scope : List String} {xs : List Lexeme}
    {args : List (Bool × Term)}, Arguments ar scope xs args → Spelled xs →
    ∀ arg ∈ args, arg.2.Formed
  | _, _, _, .nil, _ => List.forall_mem_nil _
  | _, _, _, .cons first others, words => by
      simp only [Spelled, List.forall_mem_append] at words
      obtain ⟨-, words, words'⟩ := words
      exact List.forall_mem_cons.2 ⟨first.formed words, others.formed words'⟩

/-- Entries that are derived are formed and have names that can be written. -/
theorem Block.formed {ar : Arith} : ∀ {separator : String} {scope : List String}
    {xs : List Lexeme} {entries : Entries}, Block ar separator scope xs entries → Spelled xs →
    (∀ label ∈ entries.labels, isName label = true) ∧ ∀ entry ∈ entries.toList, entry.2.Formed
  | _, _, _, _, .nil, _ => ⟨List.forall_mem_nil _, List.forall_mem_nil _⟩
  | _, _, _, _, .last plain first, words => by
      simp only [Spelled, List.forall_mem_cons] at words
      obtain ⟨word, -, words⟩ := words
      exact ⟨List.forall_mem_singleton.2 (isName_of_spelled word plain),
        List.forall_mem_singleton.2 (first.formed words)⟩
  | _, _, _, _, .cons plain first others, words => by
      simp only [Spelled, List.forall_mem_cons, List.forall_mem_append] at words
      obtain ⟨word, -, words, -, words'⟩ := words
      obtain ⟨names, all⟩ := others.formed words'
      exact ⟨List.forall_mem_cons.2 ⟨isName_of_spelled word plain, names⟩,
        List.forall_mem_cons.2 ⟨first.formed words, all⟩⟩

end

/-- What the lexer takes for a word has the form of one. -/
theorem spelled_lexemeAt {c : Char} {rest : List Char} {lexeme : Lexeme} {more : Nat}
    (read : lexemeAt c rest = .ok (lexeme, more)) : spelled lexeme = true := by
  revert read
  fun_cases lexemeAt c rest with
  | case1 start =>
      intro read
      cases read
      simp only [spelled, isWord, String.toList_ofList, start, Bool.true_and]
      exact List.all_takeWhile
  | _ =>
      intro read
      cases read <;> rfl

/-- The words among the tokens of a source text have the form of words. -/
theorem spelled_of_tokensFrom {pass : Nat} {comment : Bool} {chars : List Char} {pos stop : Pos}
    {tokens : List Token} (read : tokensFrom pass comment chars pos = .ok (tokens, stop)) :
    Spelled (tokens.map Token.lexeme) := by
  fun_induction tokensFrom pass comment chars pos generalizing tokens with
  | case1 =>
      cases read
      exact List.forall_mem_nil _
  | case2 _ _ _ _ _ ih | case3 _ _ _ ih | case4 _ _ _ _ ih | case5 _ _ _ _ _ ih => exact ih read
  | case6 => cases read
  | case7 c rest pos _ _ lexeme more first ih =>
      obtain ⟨⟨later, stop'⟩, others, last⟩ := ok_of_bind read
      cases last
      exact List.forall_mem_cons.2 ⟨spelled_lexemeAt first, ih others⟩

/-- The definition has a name that can be written, and formed terms. -/
structure FormedDefinition (definition : Definition) : Prop where
  name : isName definition.name = true
  type : ∀ type ∈ definition.type?, type.Formed
  term : definition.term.Formed

/-- A definition that is written is formed. -/
theorem Written.formed {ar : Arith} {tokens : List Token} {definition : Definition}
    (written : Written ar tokens definition) (words : Spelled (tokens.map Token.lexeme)) :
    FormedDefinition definition := by
  cases written with
  | plain plain same inner =>
      simp only [List.map_cons, same, Spelled, List.forall_mem_cons] at words
      obtain ⟨word, -, words⟩ := words
      refine ⟨isName_of_spelled word plain, ?_, inner.formed words⟩
      intro type mem
      cases mem
  | annotated plain same first second =>
      simp only [List.map_cons, same, Spelled, List.forall_mem_cons, List.forall_mem_append]
        at words
      obtain ⟨word, -, words, -, words'⟩ := words
      refine ⟨isName_of_spelled word plain, ?_, second.formed words'⟩
      intro type mem
      cases mem
      exact first.formed words

/-- Definitions that are written are formed. -/
theorem Splits.formed {ar : Arith} {tokens : List Token} {definitions : List Definition}
    (splits : Splits ar tokens definitions) (words : Spelled (tokens.map Token.lexeme)) :
    ∀ definition ∈ definitions, FormedDefinition definition := by
  induction splits with
  | nil => exact List.forall_mem_nil _
  | cons first _ ih =>
      rw [List.map_append, Spelled, List.forall_mem_append] at words
      exact List.forall_mem_cons.2 ⟨first.formed words.1, ih words.2⟩

end Grammar

end BoxCalculus
