import BoxCalculus.Proofs.Grammar.Parsing
import BoxCalculus.Proofs.Grammar.WellFormed
import BoxCalculus.Source.Formatting

/-!
# Reading back formatted definitions

What formatting writes is read as the same definitions, up to the names of bound variables, and
formatting it again changes nothing (`formatSource_reads_back`).
-/

namespace BoxCalculus

open Grammar

/-- What holds of the variables of a term holds everywhere in it, if it is a question about
variables only. -/
theorem Term.everywhere_of_allVars {p : Nat → Int → Bool} {q : Term → Bool}
    (vars : ∀ k i, p k i = true → q (.var i) = true)
    (others : ∀ t : Term, (∀ i, t ≠ .var i) → q t = true) {t : Term} {depth : Nat}
    (all : t.allVars p depth = true) : t.everywhere q = true := by
  induction t using Term.byParts generalizing depth with
  | step t ih =>
      rw [Term.everywhere_iff]
      by_cases isVar : ∃ i, t = .var i
      · obtain ⟨i, rfl⟩ := isVar
        exact ⟨vars depth i all, List.forall_mem_nil _⟩
      · rw [not_exists] at isVar
        rw [Term.allVars_eq_all p depth isVar, List.all_eq_true] at all
        exact ⟨others t isVar, fun part mem => ih part mem (all part mem)⟩

/-- No index in the term is too large for a machine word. -/
def Term.fits (t : Term) : Bool :=
  t.allVars (fun _ i => i < 0x8000_0000_0000_0000) 0

/-- No index in the terms of the definition is too large for a machine word. -/
def Definition.fits (definition : Definition) : Bool :=
  definition.type?.all Term.fits && definition.term.fits

/-- A term that is printed has no negative index. -/
theorem Term.nonneg_of_print? {t : Term} {text : String} (printed : t.print? = some text) :
    t.nonneg = true := by
  rw [Term.print?] at printed
  split at printed
  · cases printed
  · simp_all

/-- A formed term that is printed can be read back, if its indices fit into machine words. -/
theorem Term.Formed.writable {t : Term} (formed : t.Formed) {text : String}
    (printed : t.print? = some text) (fits : t.fits = true) : Writable t := by
  refine writable_of_sound formed.sound ?_ formed.named
  refine Term.everywhere_of_allVars (fun k i small => ?_) (fun t compound => ?_)
    (Term.allVars_and (Term.nonneg_of_print? printed) fits)
  · simpa [Term.indexed] using small
  · cases t with
    | var i => exact absurd rfl (compound i)
    | _ => rfl

namespace Definition

/-- The definition can be written and read back. -/
structure Writable (definition : Definition) : Prop where
  name : isName definition.name = true
  type : ∀ type ∈ definition.type?, BoxCalculus.Writable type
  term : BoxCalculus.Writable definition.term

/-- The definition with the binders in it named as they are written. -/
def freshen (definition : Definition) (pos : Pos) : Definition where
  name := definition.name
  type? := definition.type?.map fun type => type.freshen type.refs []
  term := definition.term.freshen definition.term.refs []
  pos := pos

/-- The line of a definition, token by token. -/
def pieces (definition : Definition) : List Piece :=
  let type := match definition.type? with
    | none => []
    | some type => .blank :: .symbol ":" :: .blank :: type.pieces type.refs [] false
  .word definition.name :: (type ++ .blank :: .symbol "=" :: .blank ::
    definition.term.pieces definition.term.refs [] false)

/-- The line of a definition. -/
def line (definition : Definition) : List Char :=
  charsOf definition.pieces ++ ['\n']

/-- Naming binders as they are written does not change what is printed. -/
theorem print?_freshen (definition : Definition) (pos : Pos) :
    (definition.freshen pos).print? = definition.print? := by
  obtain ⟨name, type?, term, _⟩ := definition
  cases type? <;> simp [freshen, print?, Term.print?_freshen]

variable {definition : Definition}

namespace Writable

variable (writable : definition.Writable)
include writable

/-- A definition that can be written is printed as its line. -/
theorem exists_print? :
    ∃ text, definition.print? = some text ∧ text.toList = definition.line := by
  obtain ⟨name, type?, term, _⟩ := definition
  obtain ⟨-, types, terms⟩ := writable
  have body := chars_pieces term.refs terms [] false
  cases type? with
  | none =>
      refine ⟨name ++ "" ++ " = " ++ term.text term.refs [] false ++ "\n", ?_, ?_⟩
      · simp [print?, terms.print?_eq]
      · simp [line, pieces, Piece.chars, ← body]
  | some type =>
      have first := chars_pieces type.refs (types type rfl) [] false
      refine ⟨name ++ (" : " ++ type.text type.refs [] false) ++ " = " ++
        term.text term.refs [] false ++ "\n", ?_, ?_⟩
      · simp [print?, terms.print?_eq, (types type rfl).print?_eq]
      · simp [line, pieces, Piece.chars, ← body, ← first]

/-- The line of a definition that can be written is legible. -/
theorem legible : Legible definition.pieces := by
  obtain ⟨name, type?, term, _⟩ := definition
  obtain ⟨named, types, terms⟩ := writable
  have body := legible_pieces term.refs terms (List.forall_mem_nil _) false clear_nil
  rw [List.append_nil] at body
  have symbols : "=" ∈ Piece.symbols ∧ ":" ∈ Piece.symbols := by decide
  cases type? with
  | none => simp [pieces, isWord_of_isName named, symbols, body]
  | some type =>
      have clear : Clear (.blank :: .symbol "=" :: .blank :: term.pieces term.refs [] false) := by
        simp [symbols, body]
      have first := legible_pieces type.refs (types type rfl) (List.forall_mem_nil _) false clear
      simp [pieces, isWord_of_isName named, symbols, first]

end Writable

end Definition

/-- Placed pieces have the lexemes of the pieces. -/
theorem lexemes_placed (pos : Pos) (pieces : List Piece) :
    (placed pos pieces).map Token.lexeme = pieces.filterMap Piece.lexeme? := by
  induction pieces generalizing pos with
  | nil => rfl
  | cons piece rest ih => cases piece <;> simp [List.filterMap_cons, Piece.lexeme?, ih]

/-- A written term is derived from its lexemes. -/
theorem Writable.derivation {t : Term} (writable : Writable t) :
    Nonempty (Derivation .word [] ((t.pieces t.refs [] false).filterMap Piece.lexeme?)
      (t.freshen t.refs [])) := by
  have reads := (Parser.reads_pieces t.refs writable (fun _ mem => mem) (.nil t.refs)).1
  obtain ⟨xs, ⟨front, rfl, same⟩, derivation⟩ :=
    (Parser.sound .word _).of_term (reads default default _ [] (Nat.le_refl _))
  rwa [← List.append_cancel_right same, lexemes_placed] at derivation

/-- The tokens of a written definition are read as the definition. -/
theorem Definition.Writable.written {definition : Definition} (writable : definition.Writable)
    (pos : Pos) : Written .word (placed pos definition.pieces) (definition.freshen pos) := by
  obtain ⟨name, type?, term, _⟩ := definition
  obtain ⟨named, types, terms⟩ := writable
  have plain := Parser.not_keyword named
  obtain ⟨body⟩ := terms.derivation
  cases type? with
  | none =>
      show Written .word (⟨.word name, pos⟩ :: placed (pos.past name.toList)
        (.blank :: .symbol "=" :: .blank :: term.pieces term.refs [] false)) _
      refine .plain plain ?_ body
      simp [lexemes_placed]
  | some type =>
      obtain ⟨first⟩ := (types type rfl).derivation
      show Written .word (⟨.word name, pos⟩ :: placed (pos.past name.toList)
        (.blank :: .symbol ":" :: .blank :: (type.pieces type.refs [] false ++
          .blank :: .symbol "=" :: .blank :: term.pieces term.refs [] false))) _
      refine .annotated plain ?_ first body
      simp [lexemes_placed, placed_append]

/-- The lexer passes over the end of a line. -/
theorem tokensFrom_newline (more : List Char) (pos : Pos) :
    tokensFrom 0 false ('\n' :: more) pos = tokensFrom 0 false more (pos.advance '\n') := by
  have blank : Text.isBlank '\n' = true := by decide
  rw [tokensFrom, if_pos blank]

/-- The lines of definitions are read as the definitions. -/
theorem splits_lines {definitions : List Definition}
    (writable : ∀ definition ∈ definitions, definition.Writable) (pos : Pos) :
    ∃ tokens stop definitions',
      tokensFrom 0 false (definitions.flatMap Definition.line) pos = .ok (tokens, stop) ∧
      Splits .word tokens definitions' ∧
      List.Forall₂ (fun first second => ∃ pos, second = first.freshen pos) definitions
        definitions' := by
  induction definitions generalizing pos with
  | nil => exact ⟨[], pos, [], rfl, .nil, .nil⟩
  | cons first others ih =>
      rw [List.forall_mem_cons] at writable
      obtain ⟨first_writable, others_writable⟩ := writable
      obtain ⟨tokens, stop, definitions', read, splits, same⟩ :=
        ih others_writable ((pos.past (charsOf first.pieces)).advance '\n')
      -- The end of the line ends the last word on it.
      have separate : Separate ('\n' :: others.flatMap Definition.line) := by
        intro c first
        cases first
        decide
      refine ⟨placed pos first.pieces ++ tokens, stop, first.freshen pos :: definitions', ?_,
        .cons (first_writable.written pos) splits, .cons ⟨pos, rfl⟩ same⟩
      rw [List.flatMap_cons, Definition.line, List.append_assoc, List.singleton_append,
        tokensFrom_legible first_writable.legible separate, tokensFrom_newline, read]
      rfl

/-- The second definition is the first one, up to the names of bound variables. Without these names
the terms are the same with their erasure marks, which `Term.equal` does not look at. -/
structure Definition.SameAs (first second : Definition) : Prop where
  name : second.name = first.name
  annotated : second.type?.isSome = first.type?.isSome
  type : ∀ type ∈ first.type?, ∀ type' ∈ second.type?,
    type.equal type' = true ∧ type'.strip id = type.strip id
  term : first.term.equal second.term = true ∧ second.term.strip id = first.term.strip id

/-- Naming binders as they are written gives the same definition. -/
theorem Definition.sameAs_freshen (definition : Definition) (pos : Pos) :
    definition.SameAs (definition.freshen pos) := by
  have same (t : Term) : t.equal (t.freshen t.refs []) = true ∧
      (t.freshen t.refs []).strip id = t.strip id := by
    refine ⟨?_, Term.strip_freshen ..⟩
    rw [Term.equal_iff_strip, Term.strip_freshen]
  refine ⟨rfl, Option.isSome_map .., fun type mem type' mem' => ?_, same _⟩
  rw [Definition.freshen, Option.mem_def.1 mem] at mem'
  cases mem'
  exact same type

/-- A formed definition that is printed can be read back, if its indices fit into machine words. -/
theorem Grammar.FormedDefinition.writable {definition : Definition}
    (formed : FormedDefinition definition) (printed : ∃ text, definition.print? = some text)
    (fits : definition.fits = true) : definition.Writable := by
  obtain ⟨name, type?, term, _⟩ := definition
  obtain ⟨named, types, terms⟩ := formed
  obtain ⟨text, printed⟩ := printed
  rw [Definition.fits, Bool.and_eq_true] at fits
  cases type? with
  | none =>
      obtain ⟨_, term_printed, -⟩ := Option.bind_eq_some_iff.1 printed
      exact ⟨named, by simp, terms.writable term_printed fits.2⟩
  | some type =>
      obtain ⟨_, type_printed, printed⟩ := Option.bind_eq_some_iff.1 printed
      obtain ⟨_, term_printed, -⟩ := Option.bind_eq_some_iff.1 printed
      obtain ⟨_, type_printed, -⟩ := Option.map_eq_some_iff.1 type_printed
      refine ⟨named, fun other mem => ?_, terms.writable term_printed fits.2⟩
      obtain rfl := Option.some.inj mem
      exact (types type rfl).writable type_printed fits.1

/-- A map over a list succeeds if it does for each member. -/
theorem mapM_eq_some_iff {α β : Type} {f : α → Option β} {xs : List α} {ys : List β} :
    xs.mapM f = some ys ↔ List.Forall₂ (fun x y => f x = some y) xs ys := by
  induction xs generalizing ys with
  | nil => simp [eq_comm]
  | cons x xs ih =>
      rw [List.mapM_cons, List.forall₂_cons_left_iff]
      simp only [Option.bind_eq_bind, Option.bind_eq_some_iff, ih, Option.pure_def,
        Option.some.injEq, exists_and_left, eq_comm (a := ys)]

/-- Formatting a source prints the definitions that are read from it. -/
theorem formatSource_some_iff {file source out : String} :
    formatSource .word file source = .ok (some out) ↔ ∃ definitions lines,
      parseFile .word file source = .ok definitions ∧
      List.Forall₂ (fun definition line => definition.print? = some line) definitions lines ∧
      String.join lines = out := by
  constructor
  · intro ok
    obtain ⟨definitions, parsed, printed⟩ := ok_of_bind ok
    obtain ⟨lines, printed, joined⟩ := Option.map_eq_some_iff.1 (Except.ok.inj printed)
    exact ⟨definitions, lines, parsed, mapM_eq_some_iff.1 printed, joined⟩
  · rintro ⟨definitions, lines, parsed, printed, rfl⟩
    rw [formatSource, parsed]
    show Except.ok ((definitions.mapM Definition.print?).map String.join) = _
    rw [mapM_eq_some_iff.2 printed]
    rfl

/-- The lines of definitions that can be read back are written token by token. -/
theorem toList_join_lines {definitions : List Definition} {lines : List String}
    (writable : ∀ definition ∈ definitions, definition.Writable)
    (printed : List.Forall₂ (fun definition line => definition.print? = some line) definitions
      lines) :
    (String.join lines).toList = definitions.flatMap Definition.line := by
  rw [String.toList_join]
  induction printed with
  | nil => rfl
  | @cons definition line definitions lines here _ ih =>
      rw [List.forall_mem_cons] at writable
      obtain ⟨text, same, chars⟩ := writable.1.exists_print?
      obtain rfl := Option.some.inj (here.symm.trans same)
      rw [List.flatMap_cons, List.flatMap_cons, chars, ih writable.2]

/-- Definitions that were read from other lines are printed the same way. -/
theorem printed_freshen {definitions definitions' : List Definition} {lines : List String}
    (fresh : List.Forall₂ (fun first second => ∃ pos, second = first.freshen pos) definitions
      definitions')
    (printed : List.Forall₂ (fun definition line => definition.print? = some line) definitions
      lines) :
    List.Forall₂ (fun definition line => definition.print? = some line) definitions' lines := by
  induction fresh generalizing lines with
  | nil => exact printed
  | cons here _ ih =>
      obtain ⟨line, lines, first, others, rfl⟩ := List.forall₂_cons_left_iff.1 printed
      obtain ⟨pos, rfl⟩ := here
      exact .cons ((Definition.print?_freshen ..).trans first) (ih others)

/-- What formatting writes is read as the definitions of the source, in order: each has its name, is
annotated as before, and has the same type and term with the same erasure marks. Formatting it again
changes nothing. -/
theorem formatSource_reads_back {file source out : String} {definitions : List Definition}
    (parsed : parseFile .word file source = .ok definitions)
    (formatted : formatSource .word file source = .ok (some out))
    (fits : ∀ definition ∈ definitions, definition.fits = true) (file' : String) :
    ∃ definitions', parseFile .word file' out = .ok definitions' ∧
      List.Forall₂ Definition.SameAs definitions definitions' ∧
      formatSource .word file' out = .ok (some out) := by
  obtain ⟨_, lines, parsed', printed, rfl⟩ := formatSource_some_iff.1 formatted
  obtain rfl := Except.ok.inj (parsed.symm.trans parsed')
  obtain ⟨tokens, stop, read, splits⟩ := parseFile_ok_iff.1 parsed
  have formed := splits.formed (spelled_of_tokensFrom read)
  have lines_of : ∀ definition ∈ definitions, ∃ line, definition.print? = some line :=
    forall_mem_of_forall₂ (P := fun _ => True) (List.Forall₂.flip printed) (by simp)
      fun line definition same _ => ⟨line, same⟩
  have writable : ∀ definition ∈ definitions, definition.Writable := fun definition mem =>
    (formed definition mem).writable (lines_of definition mem) (fits definition mem)
  obtain ⟨tokens', stop', definitions', read', splits', fresh⟩ :=
    splits_lines writable (Pos.start file')
  rw [← toList_join_lines writable printed] at read'
  have again : parseFile .word file' (String.join lines) = .ok definitions' :=
    parseFile_ok_iff.2 ⟨tokens', stop', read', splits'⟩
  refine ⟨definitions', again, fresh.imp ?_, formatSource_some_iff.2 ⟨definitions', lines, again,
    printed_freshen fresh printed, rfl⟩⟩
  rintro first _ ⟨pos, rfl⟩
  exact first.sameAs_freshen pos

/-- Two definitions with a comment and a local definition. In the first one a variable is called as
the one around it, which its domain speaks of; the second one is an open term. -/
def untidySource : String :=
  "// names\nf : {-x : g} g =\n [x] [x : x] let y = x in (y -x)\ng = #0"

def untidyDefinitions : List Definition :=
  [⟨"f", some (.pi true "x" (.ref "g") (.ref "g")),
      .lam false "x" .hole (.lam false "x" (.var 0) (.app true (.var 0) (.var 0))), ⟨"", 2, 1⟩⟩,
    ⟨"g", none, .var 0, ⟨"", 4, 1⟩⟩]

/-- The definitions of `untidySource` as they are written. -/
def tidySource : String :=
  "f : {-x : g} g = [x] [x1 : x] (x1 -x1)\ng = #0\n"

/-- The formatted source is read as the same definitions, and stays as it is. -/
theorem formatSource_reads_back_untidy :
    parseFile .word "" untidySource = .ok untidyDefinitions ∧
      formatSource .word "" untidySource = .ok (some tidySource) ∧
      ∃ definitions', parseFile .word "" tidySource = .ok definitions' ∧
        List.Forall₂ Definition.SameAs untidyDefinitions definitions' ∧
        formatSource .word "" tidySource = .ok (some tidySource) := by
  have parsed : parseFile .word "" untidySource = .ok untidyDefinitions := by rfl
  have formatted : formatSource .word "" untidySource = .ok (some tidySource) := by rfl
  exact ⟨parsed, formatted, formatSource_reads_back parsed formatted (by decide) ""⟩

end BoxCalculus
