import BoxCalculus.Proofs.SyntaxErrors

/-!
# Where the caret of a snippet stands

A syntax error is at a place in the source (`SyntaxError.PlacedIn`). Its snippet shows the line of that
place behind a gutter with the number of the line, and a caret below it. The caret is put as far to the
right as it has to be for a number of three digits. So it stands below the column of the error as long
as the number of the line has no more digits, and from line 1000 on it lags behind by the digits that
there are too many (`snippet_caret_lags`).
-/

namespace BoxCalculus

namespace Text

variable {separator : Char}

/-- The pieces are those that a list is split into at an element. -/
theorem pieces_eq_splitOn (separator : Char) (cs : List Char) :
    pieces separator cs = cs.splitOn separator := by
  induction cs with
  | nil => rfl
  | cons c rest ih =>
      obtain ⟨piece, more, cut⟩ := List.exists_cons_of_ne_nil (pieces_ne_nil separator rest)
      rw [List.splitOn_cons_eq_if_modifyHead, ← ih, pieces, cut]
      simp only [beq_iff_eq, List.modifyHead_cons]

/-- What comes before a separator and what comes after it is cut on its own. -/
theorem pieces_append_cons (before after : List Char) :
    pieces separator (before ++ separator :: after) =
      pieces separator before ++ pieces separator after := by
  simp only [pieces_eq_splitOn, List.splitOn_append_cons_self]

/-- A text without a separator belongs to the first piece of what comes after it. -/
theorem pieces_append_of_notMem {left : List Char} (plain : separator ∉ left) (after : List Char) :
    pieces separator (left ++ after) = (pieces separator after).modifyHead (left ++ ·) := by
  obtain ⟨first, more, cut⟩ := List.exists_cons_of_ne_nil (pieces_ne_nil separator after)
  rw [cut]
  induction left with
  | nil => exact cut
  | cons c left ih =>
      rw [List.mem_cons, not_or] at plain
      rw [List.cons_append, pieces, if_neg (Ne.symm plain.1), ih plain.2]
      rfl

/-- There is one more piece than separators. -/
theorem length_pieces (separator : Char) (cs : List Char) :
    (pieces separator cs).length = cs.count separator + 1 := by
  induction cs with
  | nil => rfl
  | cons c rest ih =>
      rw [pieces_eq_splitOn] at ih ⊢
      rw [List.splitOn_cons_eq_if_modifyHead, List.count_cons]
      split
      · rw [List.length_cons, ih]
      · rw [List.length_modifyHead, ih, Nat.add_zero]

/-- No piece has the separator in it. -/
theorem notMem_of_mem_pieces {piece cs : List Char} (found : piece ∈ pieces separator cs) :
    separator ∉ piece := by
  induction cs generalizing piece with
  | nil => simp_all [pieces]
  | cons c rest ih =>
      obtain ⟨first, more, cut⟩ := List.exists_cons_of_ne_nil (pieces_ne_nil separator rest)
      simp only [pieces, cut] at found ih
      split at found
      · rcases List.mem_cons.1 found with rfl | found
        · exact List.not_mem_nil
        · exact ih found
      · rename_i other
        rcases List.mem_cons.1 found with rfl | found
        · exact List.not_mem_cons_of_ne_of_not_mem (Ne.symm other) (ih List.mem_cons_self)
        · exact ih (List.mem_cons_of_mem _ found)

/-- Lines that are ended by separators are the pieces of the text they make up. -/
theorem pieces_flatMap {lines : List (List Char)} (whole : ∀ line ∈ lines, separator ∉ line) :
    pieces separator (lines.flatMap (· ++ [separator])) = lines ++ [[]] := by
  induction lines with
  | nil => rfl
  | cons line lines ih =>
      rw [List.forall_mem_cons] at whole
      rw [List.flatMap_cons, List.append_assoc, List.singleton_append, pieces_append_cons,
        ih whole.2, pieces_eq_splitOn, List.splitOn_eq_singleton whole.1]
      rfl

/-- The piece that a place lies in: as many pieces come before it as there are separators before the
place, and what stands in it before the place goes back to the last of these. -/
theorem pieces_append (separator : Char) (before after : List Char) :
    ∃ earlier left right later,
      pieces separator (before ++ after) = earlier ++ (left ++ right) :: later ∧
      earlier.length = before.count separator ∧
      left.length = (before.reverse.takeWhile (· != separator)).length := by
  obtain ⟨right, later, cut⟩ := List.exists_cons_of_ne_nil (pieces_ne_nil separator after)
  generalize reversed : before.reverse.takeWhile (· != separator) = left
  have plain : separator ∉ left.reverse := by
    rw [List.mem_reverse, ← reversed]
    exact fun found => by simpa using List.all_eq_true.1 List.all_takeWhile _ found
  have here : pieces separator (left.reverse ++ after) = (left.reverse ++ right) :: later := by
    rw [pieces_append_of_notMem plain, cut]
    rfl
  have back := List.takeWhile_append_dropWhile (p := (· != separator)) (l := before.reverse)
  rw [reversed] at back
  cases front : before.reverse.dropWhile (· != separator) with
  | nil =>
      -- There is no separator before the place.
      rw [front, List.append_nil] at back
      rw [back, List.reverse_reverse] at here plain
      refine ⟨[], before, right, later, here, ?_, ?_⟩
      · rw [List.count_eq_zero_of_not_mem plain, List.length_nil]
      · rw [back, List.length_reverse]
  | cons c front' =>
      have last : c = separator := by
        simpa using head?_dropWhile_eq_false (p := (· != separator)) c (by rw [front]; rfl)
      rw [front, last] at back
      have whole : before = front'.reverse ++ separator :: left.reverse := by
        rw [← List.reverse_reverse before, ← back]
        simp
      refine ⟨pieces separator front'.reverse, left.reverse, right, later, ?_, ?_, ?_⟩
      · rw [whole, List.append_assoc, List.cons_append, pieces_append_cons, here]
      · rw [length_pieces, whole, List.count_append, List.count_cons_self,
          List.count_eq_zero_of_not_mem plain]
      · exact List.length_reverse

end Text

/-! ## The place of an error -/

/-- The error is about the source and points at a place in it. -/
def SyntaxError.PlacedIn (e : SyntaxError) (file source : String) : Prop :=
  e.source = source ∧ ∃ before after, source.toList = before ++ after ∧ e.pos = Pos.behind file before

/-- A token of a layout stands behind some characters of the source. -/
theorem Layout.place_of_mem {file : String} {before chars after : List Char} {tokens : List Token}
    (layout : Layout file before chars tokens after) {token : Token} (found : token ∈ tokens) :
    ∃ done rest, before ++ chars = done ++ rest ∧ token.pos = Pos.behind file done := by
  induction layout with
  | last => cases found
  | @token before gap lexeme chars tokens after _ _ _ _ ih =>
      rcases List.mem_cons.1 found with rfl | found
      · exact ⟨before ++ gap, lexeme.chars ++ chars, by simp, rfl⟩
      · obtain ⟨done, rest, same, place⟩ := ih found
        exact ⟨done, rest, by rw [← same]; simp, place⟩

/-- The lexer fails at a place in the source. -/
theorem place_of_tokenize_error {file source : String} {fault : SyntaxFault}
    (fails : tokenize file source = .error fault) :
    ∃ before after, source.toList = before ++ after ∧ fault.pos = Pos.behind file before := by
  obtain ⟨tokens, after, layout, outcome⟩ := exists_layout file [] source.toList
  cases after with
  | nil => cases layout.tokenize_eq.symm.trans fails
  | cons c rest =>
      obtain ⟨problem, nothing⟩ := outcome c rest rfl
      obtain ⟨done, all, fails'⟩ := layout.tokenize_eq_error nothing
      cases fails'.symm.trans fails
      exact ⟨done, c :: rest, all, rfl⟩

/-- Whatever is read from the tokens of a source, an error at one of the tokens or at their end is
placed in the source. -/
theorem SyntaxError.placedIn_of_read {α : Type} {file source : String} {e : SyntaxError}
    (read : List Token → Pos → Except SyntaxFault α)
    (at_token : ∀ {tokens stop fault}, read tokens stop = .error fault →
      ∃ front rest, tokens = front ++ rest ∧ fault.pos = (Parser.next stop rest).pos)
    (fails : Except.mapError (fun fault => SyntaxError.mk fault.pos fault.problem source)
      (tokenize file source >>= fun out => read out.1 out.2) = .error e) :
    e.PlacedIn file source := by
  cases lexed : tokenize file source with
  | error fault =>
      rw [lexed] at fails
      cases fails
      exact ⟨rfl, place_of_tokenize_error lexed⟩
  | ok out =>
      obtain ⟨tokens, stop⟩ := out
      obtain ⟨layout, rfl⟩ := layout_of_tokenize lexed
      rw [lexed] at fails
      cases outcome : read tokens (Pos.behind file source.toList) with
      | ok a =>
          rw [Parser.ok_bind, outcome] at fails
          cases fails
      | error fault =>
          rw [Parser.ok_bind, outcome] at fails
          cases fails
          obtain ⟨front, rest, rfl, place⟩ := at_token outcome
          refine ⟨rfl, ?_⟩
          -- An error behind the last token is at the end of the source.
          cases rest with
          | nil => exact ⟨source.toList, [], (List.append_nil _).symm, place⟩
          | cons token rest =>
              obtain ⟨done, more, whole, here⟩ :=
                layout.place_of_mem (List.mem_append_right front List.mem_cons_self)
              exact ⟨done, more, whole, place.trans here⟩

/-- An error in a term is placed in the source. -/
theorem placedIn_of_parseTerm {ar : Arith} {file source : String} {e : SyntaxError}
    (fails : parseTerm ar file source = .error e) : e.PlacedIn file source := by
  refine SyntaxError.placedIn_of_read (fun tokens stop =>
    Parser.closedTerm ar stop tokens >>= fun out =>
      if out.2.isEmpty then pure out.1 else Parser.failure stop out.2 .unexpected) ?_ fails
  intro tokens stop fault fails
  have explains := Parser.explains_closedTerm ar stop tokens
  cases outcome : Parser.closedTerm ar stop tokens with
  | error fault' =>
      rw [outcome] at fails explains
      cases fails
      obtain ⟨xs, rest, ⟨front, -, whole⟩, place, -⟩ := explains
      exact ⟨front, rest, whole, place⟩
  | ok out =>
      obtain ⟨t, rest⟩ := out
      rw [outcome] at fails explains
      obtain ⟨xs, ⟨front, -, whole⟩, -⟩ := explains
      cases rest with
      | nil => cases fails
      | cons token rest =>
          cases fails
          exact ⟨front, token :: rest, whole, rfl⟩

/-- An error in definitions is placed in the source. -/
theorem placedIn_of_parseFile {ar : Arith} {file source : String} {e : SyntaxError}
    (fails : parseFile ar file source = .error e) : e.PlacedIn file source := by
  refine SyntaxError.placedIn_of_read (fun tokens stop =>
    Parser.definitions ar stop tokens.length tokens) ?_ fails
  intro tokens stop fault fails
  obtain ⟨xs, rest, ⟨front, -, whole⟩, place, -⟩ :=
    Parser.outOfPlace_of_definitions (Nat.le_refl _) fails
  exact ⟨front, rest, whole, place⟩

/-! ## The caret -/

/-- What stands before a line of the source in a snippet. -/
def gutter (number : Nat) : List Char :=
  (" " ++ padded (toString number) ++ " | ").toList

/-- The gutter has three columns for the number, and more if the number has more digits. -/
theorem length_gutter (number : Nat) :
    (gutter number).length = 7 + ((toString number).length - 3) := by
  simp only [gutter, padded, String.toList_append, String.toList_ofList, List.length_append,
    List.length_replicate, String.length_toList]
  have ends : " ".length = 1 ∧ " | ".length = 3 := ⟨rfl, rfl⟩
  omega

/-- A gutter is in one line. -/
theorem newline_notMem_gutter (number : Nat) : '\n' ∉ gutter number := by
  simp only [gutter, padded, String.toList_append, String.toList_ofList, List.mem_append, not_or]
  refine ⟨⟨by decide, fun blank => ?_, fun digit => ?_⟩, by decide⟩
  · cases (List.mem_replicate.1 blank).2
  · exact absurd (isNamePart_digit number digit) (by decide)

/-- The numbered lines that a snippet shows, up to the one with the number `n`. -/
theorem shown_lines (earlier later : List (List Char)) (line : List Char) {n : Nat} (first : Nat)
    (last : n = earlier.length + 1) (positive : 0 < first) (le : first ≤ n) :
    (((earlier ++ line :: later).take n).drop (first - 1)).zipIdx first =
      (earlier.drop (first - 1)).zipIdx first ++ [(line, n)] := by
  have front : (earlier ++ line :: later).take n = earlier ++ [line] := by
    rw [last, List.take_length_add_append]
    rfl
  have number : first + (earlier.length - (first - 1)) = n := by omega
  rw [front, List.drop_append_of_le_length (by omega), List.zipIdx_append, List.length_drop, number]
  rfl

/-- A line of the source with its number, as it is shown. -/
def numbered (shown : List Char × Nat) : List Char :=
  gutter shown.2 ++ shown.1

/-- A numbered line is one line. -/
theorem newline_notMem_numbered {shown : List Char × Nat} (plain : '\n' ∉ shown.1) :
    '\n' ∉ numbered shown := by
  rw [numbered, List.mem_append, not_or]
  exact ⟨newline_notMem_gutter shown.2, plain⟩

/-- Lines with their numbers are shown one after the other. -/
theorem toList_join_shown (shown : List (List Char × Nat)) :
    (String.join (shown.map fun (content, number) =>
      " " ++ padded (toString number) ++ " | " ++ String.ofList content ++ "\n")).toList =
    (shown.map numbered).flatMap (· ++ ['\n']) := by
  rw [String.toList_join, List.flatMap_map, List.flatMap_map]
  refine congrArg (List.flatMap · shown) (funext fun line => ?_)
  rw [String.toList_append, String.toList_append, String.toList_ofList]
  rfl

/-- The lines of a snippet at a place in the source: above the last ones come a line without a number
and up to two lines of the source, then comes the line of the place, then the caret. -/
theorem snippet?_lines {source : String} {pos : Pos} {earlier later : List (List Char)}
    {line : List Char} (cut : Text.pieces '\n' source.toList = earlier ++ line :: later)
    (number : pos.line = earlier.length + 1) (column : 1 ≤ pos.column)
    (room : pos.column + 6 ≤ blankLimit) :
    ∃ text above, snippet? source pos = some text ∧
      Text.pieces '\n' text.toList = above ++ [gutter pos.line.toNat ++ line,
        List.replicate (pos.column + 6).toNat ' ' ++ ['^'], []] := by
  have offset : caretOffset pos.column = pos.column + 6 := by
    unfold blankLimit at room
    exact Arith.word_add_eq (by omega) (by omega)
  have inside : ¬ (pos.line < 1 ∨ ((earlier ++ line :: later).length : Int) < pos.line) := by
    rw [List.length_append, List.length_cons]
    omega
  have placed : ¬ (pos.column + 6 < 0 ∨ blankLimit < pos.column + 6) := by omega
  have plain : ∀ piece ∈ earlier ++ line :: later, '\n' ∉ piece :=
    fun piece found => Text.notMem_of_mem_pieces (cut ▸ found)
  -- The snippet consists of these lines, and as none has a newline in it they are its pieces.
  let first := max 1 (pos.line.toNat - 2)
  let above := "     |".toList :: ((earlier.drop (first - 1)).zipIdx first).map numbered
  let caret := List.replicate (pos.column + 6).toNat ' ' ++ ['^']
  let lines := above ++ [numbered (line, pos.line.toNat), caret]
  have whole : ∀ line ∈ lines, '\n' ∉ line := by
    simp only [lines, above, List.forall_mem_append, List.forall_mem_cons, List.forall_mem_map]
    refine ⟨⟨by decide, fun shown mem => newline_notMem_numbered ?_⟩,
      newline_notMem_numbered (plain line (by simp)), fun newline => ?_, List.forall_mem_nil _⟩
    · have mem' := List.mem_of_mem_drop (List.fst_mem_of_mem_zipIdx mem)
      exact plain _ (List.mem_append_left _ mem')
    · simp [caret] at newline
  refine ⟨String.ofList (lines.flatMap (· ++ ['\n'])), above, ?_, ?_⟩
  · unfold snippet?
    simp only [cut, offset, if_neg inside, if_neg placed]
    rw [shown_lines earlier later line first (by omega) (by omega) (by omega)]
    refine congrArg some (String.toList_inj.1 ?_)
    rw [String.toList_append, String.toList_append, String.toList_append, toList_join_shown]
    simp [lines, above, caret]
  · rw [String.toList_ofList, Text.pieces_flatMap whole, List.append_assoc]
    rfl

/-- The text ends with the line that the position is in, behind a gutter, and below it with blanks and
a caret, which stands `lag` characters to the left of the column of the position. -/
def CaretLags (source text : String) (pos : Pos) (lag : Nat) : Prop :=
  ∃ above gutter line blanks,
    (Text.pieces '\n' source.toList)[(pos.line - 1).toNat]? = some line ∧
    (pos.column - 1).toNat ≤ line.length ∧
    Text.pieces '\n' text.toList =
      above ++ [gutter ++ line, List.replicate blanks ' ' ++ ['^'], []] ∧
    blanks + lag = gutter.length + (pos.column - 1).toNat

/-- The caret stands in one place. -/
theorem CaretLags.unique {source text : String} {pos : Pos} {lag lag' : Nat}
    (lags : CaretLags source text pos lag) (lags' : CaretLags source text pos lag') : lag = lag' := by
  obtain ⟨above, gutter, line, blanks, here, -, shown, place⟩ := lags
  obtain ⟨above', gutter', line', blanks', here', -, shown', place'⟩ := lags'
  obtain rfl := Option.some.inj (here.symm.trans here')
  obtain ⟨-, same⟩ := List.append_inj' (shown.symm.trans shown') rfl
  simp only [List.cons.injEq, List.append_cancel_right_eq] at same
  obtain ⟨rfl, caret, -⟩ := same
  have length := congrArg List.length caret
  rw [List.length_replicate, List.length_replicate] at length
  omega

/-- The snippet at a place in the source: the caret lags by the digits that the number of the line has
beyond three. -/
theorem caretLags_behind {file source : String} {before after : List Char} {pos : Pos}
    (whole : source.toList = before ++ after) (place : pos = Pos.behind file before)
    (room : pos.column + 6 ≤ blankLimit) :
    ∃ text, snippet? source pos = some text ∧
      CaretLags source text pos ((toString pos.line.toNat).length - 3) := by
  obtain ⟨earlier, left, right, later, cut, count, length⟩ := Text.pieces_append '\n' before after
  rw [← whole] at cut
  have number : pos.line = earlier.length + 1 := by
    rw [place, count, Int.add_comm]
    rfl
  have column : pos.column = left.length + 1 := by
    rw [place, length, Int.add_comm]
    rfl
  obtain ⟨text, above, snippet, lines⟩ := snippet?_lines cut number (by omega) room
  refine ⟨text, snippet, above, gutter pos.line.toNat, left ++ right, _, ?_, ?_, lines, ?_⟩
  · have index : (pos.line - 1).toNat = earlier.length := by omega
    rw [cut, index, List.getElem?_append_right (Nat.le_refl _), Nat.sub_self]
    rfl
  · rw [List.length_append]
    omega
  · rw [length_gutter]
    omega

/-- The number of a line has at most three digits up to line 999. -/
theorem length_toString_le_three {n : Nat} : (toString n).length - 3 = 0 ↔ n < 1000 := by
  rw [Nat.sub_eq_zero_iff_le, Nat.toString_eq_ofList_toDigits, String.length_ofList,
    Nat.length_toDigits_le_iff (by decide) (by decide)]

/-- The snippet of a syntax error, whether in a term or in definitions, shows the line of the error and
a caret below it. The caret lags behind the column of the error by the digits that the number of the
line has beyond three, so it stands below the column exactly in the first 999 lines. This holds as long
as there is room for the blanks before the caret. -/
theorem snippet_caret_lags {ar : Arith} {file source : String} {e : SyntaxError}
    (fails : parseTerm ar file source = .error e ∨ parseFile ar file source = .error e)
    (room : e.pos.column + 6 ≤ blankLimit) :
    ∃ text, e.snippet? = some text ∧
      CaretLags source text e.pos ((toString e.pos.line.toNat).length - 3) ∧
      (CaretLags source text e.pos 0 ↔ e.pos.line < 1000) := by
  obtain ⟨rfl, before, after, whole, place⟩ : e.PlacedIn file source :=
    fails.elim placedIn_of_parseTerm placedIn_of_parseFile
  obtain ⟨text, snippet, lags⟩ := caretLags_behind whole place room
  refine ⟨text, snippet, lags, ?_⟩
  constructor
  · intro below
    have digits := length_toString_le_three.1 (lags.unique below)
    omega
  · intro early
    rw [length_toString_le_three.2 (by omega)] at lags
    exact lags

/-- A line with the head of a function, whose body is missing. -/
def headOnly : String :=
  "[x : Type]\n"

/-- The body of the function is missing at the start of the second line, which is empty. As definitions
the text is wrong from the start. -/
theorem snippet_caret_lags_headOnly :
    ∃ e text e' text', parseTerm .word "" headOnly = .error e ∧ e.pos = ⟨"", 2, 1⟩ ∧
      e.snippet? = some text ∧ CaretLags headOnly text e.pos 0 ∧
      parseFile .word "" headOnly = .error e' ∧ e'.pos = ⟨"", 1, 1⟩ ∧
      e'.snippet? = some text' ∧ CaretLags headOnly text' e'.pos 0 := by
  obtain ⟨e, term, place⟩ : ∃ e, parseTerm .word "" headOnly = .error e ∧ e.pos = ⟨"", 2, 1⟩ :=
    ⟨_, rfl, rfl⟩
  obtain ⟨e', file, place'⟩ : ∃ e, parseFile .word "" headOnly = .error e ∧ e.pos = ⟨"", 1, 1⟩ :=
    ⟨_, rfl, rfl⟩
  obtain ⟨text, snippet, -, early⟩ := snippet_caret_lags (.inl term) (by rw [place]; decide)
  obtain ⟨text', snippet', -, early'⟩ := snippet_caret_lags (.inr file) (by rw [place']; decide)
  exact ⟨e, text, e', text', term, place, snippet, early.2 (by rw [place]; decide), file, place',
    snippet', early'.2 (by rw [place']; decide)⟩

/-- A closing parenthesis behind empty lines. -/
def lateParenthesis (lines : Nat) : String :=
  String.ofList (List.replicate lines '\n' ++ [')'])

/-- Empty lines are a gap. -/
theorem gap_newlines (after : List Char) (n : Nat) : Gap after (List.replicate n '\n') := by
  induction n with
  | zero => exact .nil
  | succ n ih => exact .blank (by decide) ih

/-- Behind empty lines a new one starts. -/
theorem behind_newlines (file : String) (n : Nat) :
    Pos.behind file (List.replicate n '\n') = ⟨file, 1 + n, 1⟩ := by
  rw [Pos.behind, List.count_replicate_self, List.reverse_replicate]
  cases n <;> rfl

/-- The parenthesis is unexpected on its line. -/
theorem parseTerm_lateParenthesis (lines : Nat) : parseTerm .word "" (lateParenthesis lines) =
    .error ⟨⟨"", 1 + lines, 1⟩, .unexpected (.symbol ")"), lateParenthesis lines⟩ := by
  have layout : Layout "" [] (lateParenthesis lines).toList [⟨.symbol ")", ⟨"", 1 + lines, 1⟩⟩] [] := by
    have last : (Lexeme.symbol ")").Ends [] := fun other => absurd other (by decide)
    rw [lateParenthesis, String.toList_ofList, ← behind_newlines]
    exact .token (gap_newlines _ lines) (by decide) last (.last .nil)
  rw [parseTerm_eq .word layout.tokenize_eq]
  rfl

/-- The caret is not below the parenthesis on line 1000. -/
theorem caret_not_below_lateParenthesis :
    ∃ e text, parseTerm .word "" (lateParenthesis 999) = .error e ∧ e.snippet? = some text ∧
      ¬ CaretLags (lateParenthesis 999) text e.pos 0 := by
  obtain ⟨-, before, after, whole, place⟩ := placedIn_of_parseTerm (parseTerm_lateParenthesis 999)
  obtain ⟨text, snippet, lags⟩ := caretLags_behind whole place (by decide)
  refine ⟨_, text, parseTerm_lateParenthesis 999, snippet, fun below => ?_⟩
  exact absurd (length_toString_le_three.1 (lags.unique below)) (by decide)

end BoxCalculus
