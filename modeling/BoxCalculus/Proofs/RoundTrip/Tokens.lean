import BoxCalculus.Proofs.RoundTrip.FreshNames
import BoxCalculus.Source.Token

/-!
# Reading back the tokens of a text

A text that is written token by token is a list of pieces: words, free variables, symbols and blanks.
If it is legible, which means that no two of its tokens run into each other, the lexer finds exactly
these tokens in it, each at the place where it was written (`tokensFrom_placed`).
-/

namespace BoxCalculus

/-- A token as it is written, or a blank. -/
inductive Piece where
  | word (text : String)
  | free (index : Nat)
  | symbol (text : String)
  | blank

namespace Piece

/-- The characters of a piece. -/
def chars : Piece → List Char
  | word text => text.toList
  | free index => '#' :: (toString index).toList
  | symbol text => text.toList
  | blank => [' ']

/-- The lexeme of a piece. A blank has none. -/
def lexeme? : Piece → Option Lexeme
  | word text => some (.word text)
  | free index => some (.free (toString index))
  | symbol text => some (.symbol text)
  | blank => none

/-- The symbols of the written form. -/
def symbols : List String :=
  ["\x7b", "\x7d", "[", "]", "(", ")", "<", ">", ":", ";", "=", "=>", ".", "-"]

/-- The piece can be written. -/
def valid : Piece → Bool
  | word text => isWord text
  | symbol text => symbols.contains text
  | free _ | blank => true

/-- The piece runs on if another one like it, or the end of an arrow, stands right after it. -/
def touches : Piece → Piece → Bool
  | word _, word _ | word _, free _ | free _, word _ | free _, free _ => true
  | symbol first, symbol second => first == "=" && second == ">"
  | _, _ => false

end Piece

/-- All pieces can be written, and none runs into the next one. -/
def Legible : List Piece → Prop
  | [] => True
  | piece :: rest =>
      piece.valid = true ∧ (∀ next ∈ rest.head?, piece.touches next = false) ∧ Legible rest

/-- The characters of some pieces. -/
def charsOf (pieces : List Piece) : List Char :=
  pieces.flatMap Piece.chars

/-- The place after some characters. -/
def Pos.past (pos : Pos) (chars : List Char) : Pos :=
  chars.foldl Pos.advance pos

/-- The tokens of some pieces, each with the place where it is written. -/
def placed (pos : Pos) : List Piece → List Token
  | [] => []
  | piece :: rest =>
      (piece.lexeme?.map fun lexeme => ⟨lexeme, pos⟩).toList ++ placed (pos.past piece.chars) rest

/-- No pieces are no tokens. -/
@[simp] theorem placed_nil (pos : Pos) : placed pos [] = [] := rfl

/-- Pieces are placed behind those before them. -/
theorem placed_append (pos : Pos) (first second : List Piece) :
    placed pos (first ++ second) = placed pos first ++ placed (pos.past (charsOf first)) second := by
  induction first generalizing pos with
  | nil => rfl
  | cons piece rest ih => simp [placed, ih, charsOf, Pos.past, List.append_assoc]

/-- Characters of a token that has been read are passed over. -/
theorem tokensFrom_pass (chars more : List Char) (pos : Pos) :
    tokensFrom chars.length false (chars ++ more) pos = tokensFrom 0 false more (pos.past chars) := by
  induction chars generalizing pos with
  | nil => rfl
  | cons c rest ih => exact ih (pos.advance c)

/-- The lexer reads one token and goes on after it. -/
theorem tokensFrom_lexeme {c : Char} {chars more : List Char} {lexeme : Lexeme} (pos : Pos)
    (solid : Text.isBlank c = false) (code : c ≠ '/')
    (read : lexemeAt c (chars ++ more) = .ok (lexeme, chars.length)) :
    tokensFrom 0 false (c :: (chars ++ more)) pos =
      (tokensFrom 0 false more (pos.past (c :: chars))).map fun out =>
        (⟨lexeme, pos⟩ :: out.1, out.2) := by
  rw [tokensFrom, solid]
  simp only [Bool.false_eq_true, if_false, code, false_and, read]
  rw [tokensFrom_pass]
  rfl

/-- A blank is no letter. -/
theorem not_letter_of_blank {n : Nat} (blank : Text.inRanges n Text.blankRanges = true) :
    Text.inRanges n Text.letterRanges = false := by
  have none : ∀ n ∈ List.range' 9 5 ++ [32, 133, 160, 5760] ++ List.range' 8192 11 ++
      [8232, 8233, 8239, 8287, 12288], Text.inRanges n Text.letterRanges = false := by
    decide +kernel
  refine none n ?_
  simp only [Text.blankRanges, Text.inRanges, Bool.and_eq_true, Bool.or_eq_true,
    decide_eq_true_eq, Bool.false_eq_true, or_false] at blank
  simp only [List.mem_append, List.mem_range'_1, List.mem_cons, List.not_mem_nil, or_false]
  omega

/-- A character that can start a name is neither blank nor the start of a comment. -/
theorem isNameStart_solid {c : Char} (start : isNameStart c = true) :
    Text.isBlank c = false ∧ c ≠ '/' := by
  constructor
  · by_contra blank
    rw [Bool.not_eq_false] at blank
    have letter := not_letter_of_blank blank
    rw [isNameStart, Text.isLetter, letter, Bool.or_false, beq_iff_eq] at start
    subst start
    exact absurd blank (by decide)
  · rintro rfl
    exact absurd start (by decide)

/-- What comes after a piece does not run into it. -/
def Piece.ends (more : List Char) : Piece → Prop
  | word _ | free _ => ∀ c ∈ more.head?, isNamePart c = false
  | symbol text => text = "=" → more.head? ≠ some '>'
  | blank => True

/-- Characters are taken up to the first that does not fit. -/
theorem takeWhile_ends {p : Char → Bool} {chars more : List Char} (all : ∀ c ∈ chars, p c = true)
    (stop : ∀ c ∈ more.head?, p c = false) : (chars ++ more).takeWhile p = chars := by
  rw [List.takeWhile_append_of_pos all]
  cases more with
  | nil => simp
  | cons c rest => simp [stop c rfl]

/-- A symbol is an arrow or a single character. -/
theorem symbol_cases : ∀ text ∈ Piece.symbols, text = "=>" ∨ ∃ c ∈ symbolChars, text = c.toString := by
  have all : (Piece.symbols.all fun text =>
      text == "=>" || symbolChars.any fun c => text == c.toString) = true := by decide
  simpa only [List.all_eq_true, Bool.or_eq_true, List.any_eq_true, beq_iff_eq] using all

/-- No symbol starts with a blank or a slash. -/
theorem symbol_solid : ∀ c ∈ symbolChars, Text.isBlank c = false ∧ c ≠ '/' := by
  have all : (symbolChars.all fun c => !Text.isBlank c && c != '/') = true := by decide
  simpa only [List.all_eq_true, Bool.and_eq_true, Bool.not_eq_true', bne_iff_ne] using all

/-- A character that is a symbol is read as one, if it does not start an arrow. -/
theorem lexemeAt_symbol {c : Char} {more : List Char} (symbol : c ∈ symbolChars)
    (ends : c = '=' → more.head? ≠ some '>') :
    lexemeAt c more = .ok (.symbol c.toString, 0) := by
  have others : (symbolChars.all fun c => !isNameStart c && c != '#') = true := by decide
  simp only [List.all_eq_true, Bool.and_eq_true, Bool.not_eq_true', bne_iff_ne] at others
  obtain ⟨start, hash⟩ := others c symbol
  have arrow : ¬ (c = '=' ∧ more.head? = some '>') := fun h => ends h.1 h.2
  simp only [lexemeAt, start, hash, arrow, symbol, Bool.false_eq_true, if_false, if_true]

/-- The lexer reads a piece and goes on after it. -/
theorem tokensFrom_piece {piece : Piece} {more : List Char} (pos : Pos) (valid : piece.valid = true)
    (ends : piece.ends more) :
    tokensFrom 0 false (piece.chars ++ more) pos =
      (tokensFrom 0 false more (pos.past piece.chars)).map fun out =>
        (placed pos [piece] ++ out.1, out.2) := by
  cases piece with
  | word text =>
      rw [Piece.valid, isWord] at valid
      cases chars : text.toList with
      | nil => simp [chars] at valid
      | cons c rest =>
          simp only [chars, Bool.and_eq_true, List.all_eq_true] at valid
          obtain ⟨start, parts⟩ := valid
          obtain ⟨solid, code⟩ := isNameStart_solid start
          have back : String.ofList (c :: rest) = text := by rw [← chars, String.ofList_toList]
          have read : lexemeAt c (rest ++ more) = .ok (.word text, rest.length) := by
            simp only [lexemeAt, start, if_true, takeWhile_ends parts ends, back]
          simpa [Piece.chars, chars, placed, Piece.lexeme?] using
            tokensFrom_lexeme pos solid code read
  | free index =>
      have digits : ∀ c ∈ (toString index).toList, Text.isDigit c = true := by
        intro c member
        rw [Nat.toString_eq_ofList_toDigits, String.toList_ofList] at member
        exact isDigit_of_ascii (Nat.isDigit_of_mem_toDigits (by decide) (by decide) member)
      have stop : ∀ c ∈ more.head?, Text.isDigit c = false := by
        intro c first
        have part := ends c first
        simp only [isNamePart, Bool.or_eq_false_iff] at part
        exact part.1.2
      have some : (toString index).toList ≠ [] := by
        rw [Nat.toString_eq_ofList_toDigits, String.toList_ofList]
        exact Nat.toDigits_ne_nil
      have read : lexemeAt '#' ((toString index).toList ++ more) =
          .ok (.free (toString index), (toString index).toList.length) := by
        have start : isNameStart '#' = false := by decide
        simp only [lexemeAt, start, Bool.false_eq_true, if_false, if_true, takeWhile_ends digits stop,
          List.isEmpty_eq_false_iff.2 some, String.ofList_toList]
      simpa [Piece.chars, placed, Piece.lexeme?] using
        tokensFrom_lexeme pos (by decide) (by decide) read
  | symbol text =>
      have member : text ∈ Piece.symbols := List.contains_iff_mem.1 valid
      rcases symbol_cases text member with rfl | ⟨c, symbol, rfl⟩
      · have read : lexemeAt '=' (['>'] ++ more) = .ok (.symbol "=>", 1) := by
          have start : isNameStart '=' = false := by decide
          simp [lexemeAt, start]
        exact tokensFrom_lexeme pos (by decide) (by decide) read
      · have read : lexemeAt c ([] ++ more) = .ok (.symbol c.toString, 0) :=
          lexemeAt_symbol symbol fun equals => ends (by rw [equals]; rfl)
        obtain ⟨solid, code⟩ := symbol_solid c symbol
        simpa [Piece.chars, placed, Piece.lexeme?] using tokensFrom_lexeme pos solid code read
  | blank =>
      have blank : Text.isBlank ' ' = true := by decide
      simp only [Piece.chars, List.cons_append, List.nil_append, placed, Piece.lexeme?]
      rw [tokensFrom, if_pos blank]
      change _ = (tokensFrom 0 false more (pos.advance ' ')).map _
      cases tokensFrom 0 false more (pos.advance ' ') <;> rfl

/-- The first character of a piece: only words and free variables run on after a word, and only one
symbol is the end of an arrow. -/
theorem Piece.first_char {piece : Piece} (valid : piece.valid = true) :
    ∃ c rest, piece.chars = c :: rest ∧ (c = '>' → piece = .symbol ">") ∧
      ((Piece.word "").touches piece = false → isNamePart c = false) := by
  cases piece with
  | word text =>
      rw [Piece.valid, isWord] at valid
      cases chars : text.toList with
      | nil => simp [chars] at valid
      | cons c rest =>
          simp only [chars, Bool.and_eq_true] at valid
          refine ⟨c, rest, chars, ?_, fun apart => by cases apart⟩
          rintro rfl
          exact absurd valid.1 (by decide)
  | free index => exact ⟨'#', _, rfl, fun other => absurd other (by decide), fun apart => by cases apart⟩
  | symbol text =>
      have first : (Piece.symbols.all fun text => text.toList.head?.all fun c =>
          decide (c = '>' → text = ">") && !isNamePart c) = true := by decide
      simp only [List.all_eq_true, Option.all_eq_true, Bool.and_eq_true, decide_eq_true_eq,
        Bool.not_eq_true'] at first
      have some : ∀ text ∈ Piece.symbols, text.toList ≠ [] := by decide
      have member : text ∈ Piece.symbols := List.contains_iff_mem.1 valid
      obtain ⟨c, rest, chars⟩ := List.exists_cons_of_ne_nil (some text member)
      obtain ⟨arrow, part⟩ := first text member c (by rw [chars]; rfl)
      exact ⟨c, rest, chars, fun last => congrArg _ (arrow last), fun _ => part⟩
  | blank => exact ⟨' ', [], rfl, fun other => absurd other (by decide), fun _ => by decide⟩

/-- The text may stand right after any piece. -/
def Separate (more : List Char) : Prop :=
  ∀ c ∈ more.head?, isNamePart c = false ∧ c ≠ '>'

/-- In a legible text no piece runs into what comes after it. -/
theorem ends_of_legible {piece : Piece} {rest : List Piece} (legible : Legible (piece :: rest))
    {more : List Char} (separate : Separate more) : piece.ends (charsOf rest ++ more) := by
  obtain ⟨-, apart, after⟩ := legible
  cases rest with
  | nil =>
      cases piece with
      | word | free => exact fun c first => (separate c first).1
      | symbol => exact fun _ last => (separate '>' last).2 rfl
      | blank => trivial
  | cons next rest =>
      have apart := apart next rfl
      obtain ⟨c, later, chars, arrow, part⟩ := Piece.first_char after.1
      have head : (charsOf (next :: rest) ++ more).head? = some c := by simp [charsOf, chars]
      cases piece with
      | word | free =>
          intro c' first
          rw [head] at first
          cases first
          refine part ?_
          cases next <;> first | rfl | cases apart
      | symbol text =>
          rintro rfl last
          rw [head] at last
          rw [arrow (Option.some.inj last)] at apart
          cases apart
      | blank => trivial

/-- The lexer finds the tokens of a legible text, each at its place, and goes on after it. -/
theorem tokensFrom_legible {pieces : List Piece} (legible : Legible pieces) {more : List Char}
    (separate : Separate more) (pos : Pos) :
    tokensFrom 0 false (charsOf pieces ++ more) pos =
      (tokensFrom 0 false more (pos.past (charsOf pieces))).map fun out =>
        (placed pos pieces ++ out.1, out.2) := by
  induction pieces generalizing pos with
  | nil =>
      change tokensFrom 0 false more pos = (tokensFrom 0 false more pos).map _
      cases tokensFrom 0 false more pos <;> rfl
  | cons piece rest ih =>
      have chars : charsOf (piece :: rest) = piece.chars ++ charsOf rest := by simp [charsOf]
      rw [chars, List.append_assoc, tokensFrom_piece pos legible.1 (ends_of_legible legible separate),
        ih legible.2.2]
      have past : pos.past (piece.chars ++ charsOf rest) =
          (pos.past piece.chars).past (charsOf rest) := by simp [Pos.past]
      rw [past]
      cases tokensFrom 0 false more ((pos.past piece.chars).past (charsOf rest)) <;>
        simp [Except.map, placed]

/-- The lexer finds the tokens of a legible text, each at its place. -/
theorem tokensFrom_placed {pieces : List Piece} (legible : Legible pieces) (pos : Pos) :
    tokensFrom 0 false (charsOf pieces) pos =
      .ok (placed pos pieces, pos.past (charsOf pieces)) := by
  have separate : Separate [] := by simp [Separate]
  simpa [tokensFrom, Except.map] using tokensFrom_legible legible separate pos

end BoxCalculus
