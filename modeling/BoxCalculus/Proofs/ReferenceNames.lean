import BoxCalculus.Proofs.Encoding
import BoxCalculus.Proofs.Grammar.Parsing
import BoxCalculus.Proofs.Grammar.WellFormed

/-!
# Names are what is read as references

A text is a name exactly if it is read as a reference to itself (`isName_iff_parseTerm`). Other texts
may be read as references too, such as a name in parentheses or behind a comment, but not to
themselves: whatever is read refers to names only.

Texts arrive as bytes. `isNameBytes` looks for a name in bytes as they are, with the keywords as bytes
and the place of a character as the offset of its first byte, and finds the same names
(`isNameBytes_eq`). Bytes that are no text are no name, and are not read as a reference to themselves
either (`reference_names`).
-/

namespace BoxCalculus

/-- The characters of some bytes after the first `skip` of them, each with the offset where it starts.
-/
def Text.charsAt : (offset skip : Nat) → List UInt8 → List (Nat × Char)
  | _, _, [] => []
  | offset, skip + 1, _ :: rest => charsAt (offset + 1) skip rest
  | offset, 0, b :: rest =>
      match sequence? b rest with
      | some (c, skip) => (offset, c) :: charsAt (offset + 1) skip rest
      | none => (offset, replacement) :: charsAt (offset + 1) 0 rest

/-- Can the character stand at this offset of a name? -/
def isNameCharAt (offset : Nat) (c : Char) : Bool :=
  c == '_' || Text.isLetter c || 0 < offset && (Text.isDigit c || c == '\'')

/-- Are the bytes those of a name? -/
def isNameBytes (bytes : List UInt8) : Bool :=
  !bytes.isEmpty && !(keywords.any fun word => Text.utf8 word == bytes) &&
    (Text.charsAt 0 0 bytes).all fun (offset, c) => isNameCharAt offset c

/-- The first character of a name starts it. -/
theorem isNameCharAt_zero (c : Char) : isNameCharAt 0 c = isNameStart c := by
  simp [isNameCharAt, isNameStart]

/-- The other characters of a name go on in it. -/
theorem isNameCharAt_succ (offset : Nat) (c : Char) :
    isNameCharAt (offset + 1) c = isNamePart c := by
  simp [isNameCharAt, isNamePart, isNameStart, Bool.or_assoc]

/-- Behind the first character, all have to be parts of a name. -/
theorem all_charsAt_succ (offset skip : Nat) (bytes : List UInt8) :
    ((Text.charsAt (offset + 1) skip bytes).all fun (offset, c) => isNameCharAt offset c) =
      (Text.decodeAfter skip bytes).all isNamePart := by
  fun_induction Text.decodeAfter skip bytes generalizing offset with
  | case1 => simp [Text.charsAt]
  | case2 skip b rest ih => exact ih (offset + 1)
  | case3 b rest c skip found ih =>
      rw [Text.charsAt, found]
      dsimp only
      rw [List.all_cons, List.all_cons, isNameCharAt_succ, ih]
  | case4 b rest none ih =>
      rw [Text.charsAt, none]
      dsimp only
      rw [List.all_cons, List.all_cons, isNameCharAt_succ, ih]

/-- The bytes of a word are found to have the form of one. -/
theorem all_charsAt_eq_isWord {bytes : List UInt8} (nonempty : bytes ≠ []) :
    ((Text.charsAt 0 0 bytes).all fun (offset, c) => isNameCharAt offset c) =
      isWord (Text.decode bytes) := by
  obtain ⟨b, rest, rfl⟩ := List.exists_cons_of_ne_nil nonempty
  rw [isWord, Text.decode, String.toList_ofList, Text.charsAt, Text.decodeAfter]
  cases Text.sequence? b rest with
  | none =>
      dsimp only
      rw [List.all_cons, isNameCharAt_zero, all_charsAt_succ]
  | some found =>
      dsimp only
      rw [List.all_cons, isNameCharAt_zero, all_charsAt_succ]

/-- The characters of a word are parts of names. -/
theorem isNamePart_of_isWord {s : String} (word : isWord s = true) {c : Char}
    (member : c ∈ s.toList) : isNamePart c = true := by
  rw [isWord] at word
  cases chars : s.toList with
  | nil => simp [chars] at member
  | cons first rest =>
      simp only [chars, Bool.and_eq_true, List.all_eq_true] at word
      rcases List.mem_cons.1 (chars ▸ member) with rfl | later
      · simp [isNamePart, word.1]
      · exact word.2 c later

/-- A word holds no replacement character, so its bytes are the only ones that are read as it. -/
theorem utf8_decode_of_isWord {bytes : List UInt8} (word : isWord (Text.decode bytes) = true) :
    Text.utf8 (Text.decode bytes) = bytes := by
  have none : isNamePart Text.replacement = false := by decide +kernel
  refine Text.utf8_decode fun replaced => ?_
  rw [isNamePart_of_isWord word replaced] at none
  cases none

/-- The keywords are words, so each can be compared before its bytes are read or after. -/
theorem utf8_eq_iff_of_keyword {word : String} (reserved : word ∈ keywords) {bytes : List UInt8} :
    Text.utf8 word = bytes ↔ word = Text.decode bytes := by
  have words : keywords.all isWord = true := by decide +kernel
  constructor
  · rintro rfl
    exact (Text.decode_utf8 word).symm
  · rintro rfl
    exact utf8_decode_of_isWord (List.all_eq_true.1 words _ reserved)

/-- Bytes are a name if the text that they are read as is one. -/
theorem isNameBytes_eq (bytes : List UInt8) : isNameBytes bytes = isName (Text.decode bytes) := by
  cases bytes with
  | nil => rfl
  | cons b rest =>
      have reserved : (keywords.any fun word => Text.utf8 word == b :: rest) =
          keywords.contains (Text.decode (b :: rest)) := by
        rw [Bool.eq_iff_iff, List.any_eq_true, List.contains_iff_mem]
        constructor
        · rintro ⟨word, mem, same⟩
          rwa [← (utf8_eq_iff_of_keyword mem).1 (beq_iff_eq.1 same)]
        · intro mem
          exact ⟨_, mem, beq_iff_eq.2 ((utf8_eq_iff_of_keyword mem).2 rfl)⟩
      rw [isNameBytes, isName, reserved, all_charsAt_eq_isWord (List.cons_ne_nil b rest),
        Bool.and_comm]
      rfl

/-- A name is a single token. -/
theorem tokenize_word {s : String} (word : isWord s = true) (file : String) :
    tokenize file s = .ok ([⟨.word s, .start file⟩], (Pos.start file).past s.toList) := by
  have legible : Legible [.word s] := ⟨word, by simp, trivial⟩
  have read := tokensFrom_placed legible (.start file)
  rwa [show charsOf [.word s] = s.toList by simp [charsOf, Piece.chars]] at read

/-- A text is a name exactly if it is read as a reference to itself. -/
theorem isName_iff_parseTerm (ar : Arith) (file s : String) :
    isName s = true ↔ parseTerm ar file s = .ok (.ref s) := by
  constructor
  · intro name
    have plain : s ∉ keywords := by
      rw [isName, Bool.and_eq_true, Bool.not_eq_true'] at name
      simpa using name.2
    exact parseTerm_ok_iff.2 ⟨_, _, tokenize_word (isWord_of_isName name) file,
      ⟨.reference plain List.not_mem_nil⟩⟩
  · -- Every name that a term which was read refers to can be written.
    intro read
    obtain ⟨tokens, stop, tokenized, ⟨derivation⟩⟩ := parseTerm_ok_iff.1 read
    have formed := derivation.formed (Grammar.spelled_of_tokensFrom tokenized)
    exact formed.2.here.names s List.mem_cons_self

/-- The names are the texts that are read as references to themselves. The same holds of bytes, be
they the bytes of a text or not, where a reference has the bytes of its name. -/
theorem reference_names (ar : Arith) (file : String) :
    (∀ s, isName s = true ↔ parseTerm ar file s = .ok (.ref s)) ∧
    ∀ bytes, isNameBytes bytes = isName (Text.decode bytes) ∧
      (isNameBytes bytes = true ↔
        ∃ s, Text.utf8 s = bytes ∧ parseTerm ar file (Text.decode bytes) = .ok (.ref s)) := by
  refine ⟨isName_iff_parseTerm ar file, fun bytes => ⟨isNameBytes_eq bytes, ?_⟩⟩
  rw [isNameBytes_eq]
  constructor
  · intro name
    exact ⟨Text.decode bytes, utf8_decode_of_isWord (isWord_of_isName name),
      (isName_iff_parseTerm ar file _).1 name⟩
  · rintro ⟨s, rfl, read⟩
    rw [Text.decode_utf8] at read ⊢
    exact (isName_iff_parseTerm ar file s).2 read

end BoxCalculus
