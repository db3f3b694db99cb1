import BoxCalculus.Proofs.RoundTrip.Tokens
import BoxCalculus.Source.Parser
import Mathlib.Data.List.Induction

/-!
# What the lexer finds

A source text is laid out as gaps and tokens in turn (`Layout`), where a gap is made of blank
characters and comments and a token is as long as it can be. Each text is laid out up to its end, or
up to a character that starts no token (`exists_layout`). The lexer goes through a layout token by
token (`Layout.tokensFrom_eq`), so it succeeds exactly in the one case and fails exactly in the other
(`lexing_exact`).
-/

namespace BoxCalculus

namespace Pos

/-- The place behind some characters of a file: the line is counted by the ends of lines among them,
and the column by the characters since the last of these. -/
def behind (file : String) (before : List Char) : Pos where
  file := file
  line := 1 + before.count '\n'
  column := 1 + (before.reverse.takeWhile (· != '\n')).length

/-- Going on from the start of the file leads to the place behind the characters. -/
theorem past_start (file : String) (before : List Char) :
    (start file).past before = behind file before := by
  induction before using List.reverseRecOn with
  | nil => rfl
  | append_singleton before c ih =>
      have step : (start file).past (before ++ [c]) = ((start file).past before).advance c := by
        simp [past]
      rw [step, ih]
      by_cases newline : c = '\n'
      · subst newline
        simp [behind, advance, Int.add_assoc]
      · have count : [c].count '\n' = 0 := by simp [newline]
        simp [behind, advance, newline, count, Int.add_assoc]

/-- Going past two lists of characters is going past one after the other. -/
theorem past_append (pos : Pos) (first second : List Char) :
    pos.past (first ++ second) = (pos.past first).past second :=
  List.foldl_append ..

/-- Going past characters from a place behind others. -/
theorem past_behind (file : String) (before chars : List Char) :
    (behind file before).past chars = behind file (before ++ chars) := by
  rw [← past_start, ← past_start, past_append]

end Pos

namespace Lexeme

/-- How the lexeme is written. -/
def chars : Lexeme → List Char
  | word text | symbol text => text.toList
  | free digits => '#' :: digits.toList
  | eof => []

/-- The lexeme can be written: it is a word, a `#` with at least one digit, or a symbol. -/
def writable : Lexeme → Bool
  | word text => isWord text
  | free digits => !digits.toList.isEmpty && digits.toList.all Text.isDigit
  | symbol text => Piece.symbols.contains text
  | eof => false

/-- The lexeme does not go on in what comes after it. -/
def Ends (after : List Char) : Lexeme → Prop
  | word _ => ∀ c ∈ after.head?, isNamePart c = false
  | free _ => ∀ c ∈ after.head?, Text.isDigit c = false
  | symbol text => text = "=" → after.head? ≠ some '>'
  | eof => True

end Lexeme

/-- `Gap after chars` says that the characters are blank characters and comments, where `after` comes
after them. A comment goes from `//` to the end of the line or of the source. -/
inductive Gap (after : List Char) : List Char → Prop where
  | nil : Gap after []
  | blank {c chars} : Text.isBlank c = true → Gap after chars → Gap after (c :: chars)
  | comment {text chars} : '\n' ∉ text → (∀ c ∈ (chars ++ after).head?, c = '\n') →
      Gap after chars → Gap after ('/' :: '/' :: (text ++ chars))

/-- `Layout file before chars tokens after` says that `chars`, which come behind `before` in the file,
are gaps and the tokens in turn, from a gap to a gap, up to `after`. Each token is as long as it can
be and stands at its place. -/
inductive Layout (file : String) : (before chars : List Char) → List Token → (after : List Char) →
    Prop where
  | last {before gap after} : Gap after gap → Layout file before (gap ++ after) [] after
  | token {before gap lexeme chars tokens after} : Gap (lexeme.chars ++ chars) gap →
      lexeme.writable = true → lexeme.Ends chars →
      Layout file (before ++ gap ++ lexeme.chars) chars tokens after →
      Layout file before (gap ++ (lexeme.chars ++ chars))
        (⟨lexeme, Pos.behind file (before ++ gap)⟩ :: tokens) after

/-- The character, with `rest` after it, is not blank and starts neither a comment nor a token, and
this is what is wrong with it. -/
inductive StartsNothing : Char → List Char → SyntaxProblem → Prop where
  | stray {c rest} : Text.isBlank c = false → ¬ (c = '/' ∧ rest.head? = some '/') →
      isNameStart c = false → c ≠ '#' → c ∉ symbolChars → StartsNothing c rest (.strayChar c)
  | digits {rest} : (∀ c ∈ rest.head?, Text.isDigit c = false) →
      StartsNothing '#' rest .digitsExpected

/-- Where the characters with a property end, there is none. -/
theorem head?_dropWhile_eq_false {p : Char → Bool} {chars : List Char} :
    ∀ c ∈ (chars.dropWhile p).head?, p c = false := by
  intro c first
  have stop := List.head?_dropWhile_not p chars
  rw [Option.mem_def.1 first] at stop
  exact stop

/-- What the lexer reads can be written, and does not go on after it. -/
theorem writable_of_lexemeAt {c : Char} {rest : List Char} {lexeme : Lexeme} {more : Nat}
    (read : lexemeAt c rest = .ok (lexeme, more)) : ∃ chars after, rest = chars ++ after ∧
      more = chars.length ∧ lexeme.chars = c :: chars ∧ lexeme.writable = true ∧
      lexeme.Ends after := by
  revert read
  fun_cases lexemeAt c rest with
  | case1 start chars =>
      intro read
      cases read
      refine ⟨chars, rest.dropWhile isNamePart, List.takeWhile_append_dropWhile.symm, rfl, ?_, ?_,
        head?_dropWhile_eq_false⟩
      · exact String.toList_ofList
      · simp only [Lexeme.writable, isWord, String.toList_ofList, start, Bool.true_and]
        exact List.all_takeWhile
  | case2 =>
      intro read
      cases read
  | case3 _ hash digits some =>
      intro read
      cases read
      subst hash
      refine ⟨digits, rest.dropWhile Text.isDigit, List.takeWhile_append_dropWhile.symm, rfl, ?_, ?_,
        head?_dropWhile_eq_false⟩
      · simp [Lexeme.chars]
      · simp only [Lexeme.writable, String.toList_ofList, Bool.and_eq_true, Bool.not_eq_true']
        exact ⟨by simpa using some, List.all_takeWhile⟩
  | case4 _ _ arrow =>
      intro read
      cases read
      obtain ⟨rfl, head⟩ := arrow
      obtain ⟨after, rfl⟩ := List.head?_eq_some_iff.1 head
      exact ⟨['>'], after, rfl, rfl, rfl, by decide,
        fun other => absurd other (by decide)⟩
  | case5 _ _ arrow symbol =>
      intro read
      cases read
      have known : symbolChars.all (fun c => Piece.symbols.contains c.toString) = true := by decide
      refine ⟨[], rest, rfl, rfl, by simp [Lexeme.chars], List.all_eq_true.1 known c symbol, ?_⟩
      intro equals last
      have first : c = '=' := by
        have chars := congrArg String.toList equals
        simpa using chars
      exact arrow ⟨first, last⟩
  | case6 =>
      intro read
      cases read

/-- A lexeme that can be written and does not go on is what the lexer reads. -/
theorem lexemeAt_of_writable {lexeme : Lexeme} (writable : lexeme.writable = true) {c : Char}
    {chars after : List Char} (spelled : lexeme.chars = c :: chars) (ends : lexeme.Ends after) :
    lexemeAt c (chars ++ after) = .ok (lexeme, chars.length) := by
  cases lexeme with
  | word text =>
      have letters : text.toList = c :: chars := spelled
      have back : String.ofList (c :: chars) = text := by rw [← letters, String.ofList_toList]
      simp only [Lexeme.writable, isWord, letters, Bool.and_eq_true, List.all_eq_true] at writable
      obtain ⟨start, parts⟩ := writable
      simp only [lexemeAt, start, if_true, takeWhile_ends parts ends, back]
  | free digits =>
      obtain ⟨rfl, rfl⟩ := List.cons.inj spelled
      simp only [Lexeme.writable, Bool.and_eq_true, Bool.not_eq_true', List.all_eq_true] at writable
      have start : isNameStart '#' = false := by decide
      simp only [lexemeAt, start, Bool.false_eq_true, if_false, if_true,
        takeWhile_ends writable.2 ends, writable.1, String.ofList_toList]
  | symbol text =>
      rcases symbol_cases text (List.contains_iff_mem.1 writable) with rfl | ⟨d, symbol, rfl⟩
      · have arrow : ['=', '>'] = c :: chars := spelled
        obtain ⟨rfl, rfl⟩ := List.cons.inj arrow
        have start : isNameStart '=' = false := by decide
        simp [lexemeAt, start]
      · have single : [d] = c :: chars := by simpa [Lexeme.chars] using spelled
        obtain ⟨rfl, rfl⟩ := List.cons.inj single
        exact lexemeAt_symbol symbol fun equals => ends (by rw [equals]; rfl)
  | eof => cases writable

/-- A lexeme that can be written has a first character, which is neither blank nor the start of a
comment. -/
theorem Lexeme.exists_first {lexeme : Lexeme} (writable : lexeme.writable = true) :
    ∃ c chars, lexeme.chars = c :: chars ∧ Text.isBlank c = false ∧ c ≠ '/' := by
  cases lexeme with
  | word text =>
      rw [Lexeme.writable, isWord] at writable
      cases letters : text.toList with
      | nil => simp [letters] at writable
      | cons c chars =>
          simp only [letters, Bool.and_eq_true] at writable
          exact ⟨c, chars, letters, isNameStart_solid writable.1⟩
  | free digits => exact ⟨'#', digits.toList, rfl, by decide, by decide⟩
  | symbol text =>
      rcases symbol_cases text (List.contains_iff_mem.1 writable) with rfl | ⟨c, symbol, rfl⟩
      · exact ⟨'=', ['>'], rfl, by decide, by decide⟩
      · exact ⟨c, [], by simp [Lexeme.chars], symbol_solid c symbol⟩
  | eof => cases writable

/-- Where the lexer cannot read a lexeme, nothing starts. -/
theorem lexemeAt_error_iff {c : Char} {rest : List Char} {problem : SyntaxProblem}
    (solid : Text.isBlank c = false) (code : ¬ (c = '/' ∧ rest.head? = some '/')) :
    lexemeAt c rest = .error problem ↔ StartsNothing c rest problem := by
  constructor
  · fun_cases lexemeAt c rest with
    | case2 _ hash digits none =>
        intro fails
        cases fails
        subst hash
        refine .digits fun c first => ?_
        obtain ⟨more, rfl⟩ := List.head?_eq_some_iff.1 first
        have empty : (c :: more).takeWhile Text.isDigit = [] := List.isEmpty_iff.1 none
        simpa [List.takeWhile_cons] using empty
    | case6 start hash _ symbol =>
        intro fails
        cases fails
        exact .stray solid code (by simpa using start) hash symbol
    | _ =>
        intro fails
        cases fails
  · intro nothing
    cases nothing with
    | stray _ _ start hash symbol =>
        have arrow : ¬ (c = '=' ∧ rest.head? = some '>') := by
          rintro ⟨rfl, -⟩
          exact symbol (by decide)
        simp only [lexemeAt, start, hash, arrow, symbol, Bool.false_eq_true, if_false]
    | digits none =>
        have start : isNameStart '#' = false := by decide
        have digits : rest.takeWhile Text.isDigit = [] := takeWhile_ends (List.forall_mem_nil _) none
        simp only [lexemeAt, start, digits, Bool.false_eq_true, if_false, if_true, List.isEmpty_nil]

/-- The lexer stays in a comment until the line ends. -/
theorem tokensFrom_comment {text : List Char} (inside : '\n' ∉ text) (more : List Char) (pos : Pos) :
    tokensFrom 0 true (text ++ more) pos = tokensFrom 0 true more (pos.past text) := by
  induction text generalizing pos with
  | nil => rfl
  | cons c text ih =>
      rw [List.mem_cons, not_or] at inside
      have on : (c != '\n') = true := bne_iff_ne.2 (Ne.symm inside.1)
      rw [List.cons_append, tokensFrom, on]
      exact ih inside.2 (pos.advance c)

/-- At the end of a line, and of the source, it makes no difference whether a comment ends there. -/
theorem tokensFrom_lineEnd {chars : List Char} (ends : ∀ c ∈ chars.head?, c = '\n') (pos : Pos) :
    tokensFrom 0 true chars pos = tokensFrom 0 false chars pos := by
  cases chars with
  | nil => rfl
  | cons c rest =>
      obtain rfl := ends c rfl
      have blank : Text.isBlank '\n' = true := by decide
      rw [tokensFrom, tokensFrom, if_pos blank]
      rfl

/-- The lexer passes over a gap. -/
theorem Gap.tokensFrom_eq {after gap : List Char} (is_gap : Gap after gap) (pos : Pos) :
    tokensFrom 0 false (gap ++ after) pos = tokensFrom 0 false after (pos.past gap) := by
  induction is_gap generalizing pos with
  | nil => rfl
  | blank blank _ ih =>
      rw [List.cons_append, tokensFrom, if_pos blank]
      exact ih _
  | @comment text chars inside ends _ ih =>
      have solid : Text.isBlank '/' = false := by decide
      have opened : ∀ more, tokensFrom 0 false ('/' :: '/' :: more) pos =
          tokensFrom 0 true more ((pos.advance '/').advance '/') := by
        intro more
        rw [tokensFrom, solid]
        simp only [Bool.false_eq_true, if_false, List.head?_cons, and_self, if_true]
        rw [tokensFrom]
        rfl
      rw [List.cons_append, List.cons_append, List.append_assoc, opened, tokensFrom_comment inside,
        tokensFrom_lineEnd ends, ih]
      exact congrArg (tokensFrom 0 false after) (Pos.past_append _ text chars).symm

/-- The lexer goes through a layout token by token, and on with what comes after it. -/
theorem Layout.tokensFrom_eq {file : String} {before chars after : List Char} {tokens : List Token}
    (layout : Layout file before chars tokens after) : ∃ done, chars = done ++ after ∧
      tokensFrom 0 false chars (Pos.behind file before) =
        (tokensFrom 0 false after (Pos.behind file (before ++ done))).map fun out =>
          (tokens ++ out.1, out.2) := by
  induction layout with
  | @last before gap after is_gap =>
      refine ⟨gap, rfl, ?_⟩
      rw [is_gap.tokensFrom_eq, Pos.past_behind]
      cases tokensFrom 0 false after (Pos.behind file (before ++ gap)) <;> rfl
  | @token before gap lexeme chars tokens after is_gap writable ends _ ih =>
      obtain ⟨done, rfl, read⟩ := ih
      obtain ⟨c, more, spelled, solid, code⟩ := Lexeme.exists_first writable
      refine ⟨gap ++ (lexeme.chars ++ done), by simp, ?_⟩
      have lexed := lexemeAt_of_writable writable spelled ends
      rw [is_gap.tokensFrom_eq, Pos.past_behind, spelled, List.cons_append,
        tokensFrom_lexeme _ solid code lexed, ← spelled, Pos.past_behind, read]
      simp only [List.append_assoc]
      cases tokensFrom 0 false after _ <;> rfl

/-- A layout behind a gap. -/
theorem Layout.behind_gap {file : String} {before first chars after : List Char}
    {tokens : List Token} (extend : ∀ {after gap}, Gap after gap → chars = gap ++ after →
      Gap after (first ++ gap))
    (layout : Layout file (before ++ first) chars tokens after) :
    Layout file before (first ++ chars) tokens after := by
  cases layout with
  | last is_gap =>
      rw [← List.append_assoc]
      exact .last (extend is_gap rfl)
  | token is_gap writable ends others =>
      rw [← List.append_assoc, List.append_assoc before]
      refine .token (extend is_gap rfl) writable ends ?_
      rwa [← List.append_assoc before]

/-- A text is laid out up to its end, or up to a character that starts nothing. -/
theorem exists_layout (file : String) (before chars : List Char) : ∃ tokens after,
    Layout file before chars tokens after ∧
      ∀ c rest, after = c :: rest → ∃ problem, StartsNothing c rest problem := by
  induction length : chars.length using Nat.strongRecOn generalizing before chars with
  | ind n ih =>
  subst length
  cases chars with
  | nil => exact ⟨[], [], .last .nil, fun c rest none => by cases none⟩
  | cons c rest =>
      by_cases blank : Text.isBlank c = true
      · obtain ⟨tokens, after, layout, stop⟩ := ih rest.length (by simp) (before ++ [c]) rest rfl
        exact ⟨tokens, after, layout.behind_gap fun is_gap _ => .blank blank is_gap, stop⟩
      rw [Bool.not_eq_true] at blank
      by_cases code : c = '/' ∧ rest.head? = some '/'
      · obtain ⟨rfl, head⟩ := code
        obtain ⟨more, rfl⟩ := List.head?_eq_some_iff.1 head
        -- The comment takes the rest of the line, and the end of the line starts what is left.
        obtain ⟨text, later, rfl, inside, ends⟩ : ∃ text later, more = text ++ later ∧ '\n' ∉ text ∧
            ∀ c ∈ later.head?, c = '\n' :=
          ⟨more.takeWhile (· != '\n'), more.dropWhile (· != '\n'),
            List.takeWhile_append_dropWhile.symm,
            fun found => by simpa using List.all_eq_true.1 List.all_takeWhile _ found,
            fun c first => by simpa using head?_dropWhile_eq_false c first⟩
        have shorter : later.length < ('/' :: '/' :: (text ++ later)).length := by
          rw [List.length_cons, List.length_cons, List.length_append]
          omega
        obtain ⟨tokens, after, layout, stop⟩ :=
          ih later.length shorter (before ++ '/' :: '/' :: text) later rfl
        refine ⟨tokens, after, layout.behind_gap fun is_gap split => ?_, stop⟩
        exact .comment inside (split ▸ ends) is_gap
      · cases read : lexemeAt c rest with
        | error problem =>
            refine ⟨[], c :: rest, .last .nil, ?_⟩
            rintro _ _ ⟨⟩
            exact ⟨problem, (lexemeAt_error_iff blank code).1 read⟩
        | ok out =>
            obtain ⟨lexeme, _⟩ := out
            obtain ⟨letters, later, rfl, rfl, spelled, writable, ends⟩ := writable_of_lexemeAt read
            have shorter : later.length < (c :: (letters ++ later)).length := by
              rw [List.length_cons, List.length_append]
              omega
            obtain ⟨tokens, after, layout, stop⟩ :=
              ih later.length shorter (before ++ [] ++ lexeme.chars) later rfl
            have here := Layout.token .nil writable ends layout
            rw [spelled] at here
            exact ⟨_, after, here, stop⟩

/-- A character that starts nothing is not blank and starts no comment. -/
theorem StartsNothing.tokensFrom_eq {c : Char} {rest : List Char} {problem : SyntaxProblem}
    (nothing : StartsNothing c rest problem) (pos : Pos) :
    tokensFrom 0 false (c :: rest) pos = .error ⟨pos, problem⟩ := by
  have here : Text.isBlank c = false ∧ ¬ (c = '/' ∧ rest.head? = some '/') := by
    cases nothing with
    | stray solid code => exact ⟨solid, code⟩
    | digits => exact ⟨by decide, fun comment => absurd comment.1 (by decide)⟩
  rw [tokensFrom, here.1, if_neg Bool.false_ne_true, if_neg here.2,
    (lexemeAt_error_iff here.1 here.2).2 nothing]

/-- The lexer succeeds on a text that is laid out to its end. -/
theorem Layout.tokenize_eq {file source : String} {tokens : List Token}
    (layout : Layout file [] source.toList tokens []) :
    tokenize file source = .ok (tokens, Pos.behind file source.toList) := by
  obtain ⟨done, all, read⟩ := layout.tokensFrom_eq
  rw [List.append_nil] at all
  subst all
  calc tokenize file source
      = (tokensFrom 0 false [] (Pos.behind file source.toList)).map
          fun out => (tokens ++ out.1, out.2) := read
    _ = .ok (tokens, Pos.behind file source.toList) := by simp [tokensFrom, Except.map]

/-- The lexer fails on a text that is laid out up to a character that starts nothing. -/
theorem Layout.tokenize_eq_error {file source : String} {tokens : List Token} {c : Char}
    {rest : List Char} {problem : SyntaxProblem}
    (layout : Layout file [] source.toList tokens (c :: rest))
    (nothing : StartsNothing c rest problem) : ∃ done, source.toList = done ++ c :: rest ∧
      tokenize file source = .error ⟨Pos.behind file done, problem⟩ := by
  obtain ⟨done, all, read⟩ := layout.tokensFrom_eq
  refine ⟨done, all, ?_⟩
  rw [nothing.tokensFrom_eq] at read
  exact read

/-- No token that is laid out is the end of the source. -/
theorem Layout.lexeme_ne_eof {file : String} {before chars after : List Char} {tokens : List Token}
    (layout : Layout file before chars tokens after) {token : Token} (found : token ∈ tokens) :
    token.lexeme ≠ .eof := by
  induction layout with
  | last => cases found
  | token _ writable _ _ ih =>
      rcases List.mem_cons.1 found with rfl | found
      · rintro rfl
        cases writable
      · exact ih found

/-- The end comes behind all tokens that are laid out, and nowhere before. -/
theorem Layout.next_eq_eof_iff {file : String} {before chars after : List Char} {tokens : List Token}
    (layout : Layout file before chars tokens after) (stop : Pos) (k : Nat) :
    (Parser.next stop (tokens.drop k)).lexeme = .eof ↔ tokens.length ≤ k := by
  rw [← List.drop_eq_nil_iff]
  cases left : tokens.drop k with
  | nil => simp [Parser.next]
  | cons token rest =>
      have found : token ∈ tokens := List.mem_of_mem_drop (left ▸ List.mem_cons_self)
      simpa [Parser.next] using layout.lexeme_ne_eof found

/-- What the lexer succeeds on is laid out to its end. -/
theorem layout_of_tokenize {file source : String} {tokens : List Token} {stop : Pos}
    (lexed : tokenize file source = .ok (tokens, stop)) :
    Layout file [] source.toList tokens [] ∧ stop = Pos.behind file source.toList := by
  obtain ⟨found, after, layout, outcome⟩ := exists_layout file [] source.toList
  cases after with
  | nil =>
      obtain ⟨rfl, rfl⟩ : found = tokens ∧ Pos.behind file source.toList = stop := by
        simpa [lexed, eq_comm] using layout.tokenize_eq
      exact ⟨layout, rfl⟩
  | cons c rest =>
      obtain ⟨problem, nothing⟩ := outcome c rest rfl
      obtain ⟨done, -, fails⟩ := layout.tokenize_eq_error nothing
      rw [lexed] at fails
      cases fails

/-- The lexer loses nothing, and all places are exact. It finds some tokens if and only if the source
is gaps and these tokens in turn, and the end comes behind all of the source and nowhere before.
It fails if and only if the source is gaps and tokens in turn up to a character that starts nothing,
and then it points at this character. -/
theorem lexing_exact (file source : String) :
    (∀ tokens stop, tokenize file source = .ok (tokens, stop) ↔
      Layout file [] source.toList tokens [] ∧ stop = Pos.behind file source.toList ∧
        ∀ k, (Parser.next stop (tokens.drop k)).lexeme = .eof ↔ tokens.length ≤ k) ∧
    ∀ fault, tokenize file source = .error fault ↔ ∃ tokens done c rest,
      source.toList = done ++ c :: rest ∧ Layout file [] source.toList tokens (c :: rest) ∧
        StartsNothing c rest fault.problem ∧ fault.pos = Pos.behind file done := by
  constructor
  · intro tokens stop
    constructor
    · intro lexed
      obtain ⟨layout, rfl⟩ := layout_of_tokenize lexed
      exact ⟨layout, rfl, layout.next_eq_eof_iff _⟩
    · rintro ⟨layout, rfl, -⟩
      exact layout.tokenize_eq
  · intro fault
    constructor
    · intro fails
      obtain ⟨tokens, after, layout, outcome⟩ := exists_layout file [] source.toList
      cases after with
      | nil =>
          rw [layout.tokenize_eq] at fails
          cases fails
      | cons c rest =>
          obtain ⟨problem, nothing⟩ := outcome c rest rfl
          obtain ⟨done, all, fails'⟩ := layout.tokenize_eq_error nothing
          rw [fails'] at fails
          cases fails
          exact ⟨tokens, done, c, rest, all, layout, nothing, rfl⟩
    · rintro ⟨tokens, done, c, rest, all, layout, nothing, place⟩
      obtain ⟨done', all', fails⟩ := layout.tokenize_eq_error nothing
      obtain rfl : done' = done := List.append_cancel_right (all'.symm.trans all)
      rw [fails, ← place]

end BoxCalculus
