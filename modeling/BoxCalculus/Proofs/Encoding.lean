import BoxCalculus.Text.Utf8

/-!
# Bytes and text

Reading the bytes of a text gives the text back (`Text.decode_utf8`). Other bytes are read as text as
well, but then a replacement character stands in it: if there is none, the bytes are those of the text
(`Text.utf8_decode`).
-/

namespace BoxCalculus.Text

/-- The bytes of a text. -/
def utf8 (s : String) : List UInt8 :=
  s.toUTF8.data.toList

/-- The bytes of a text are those of its characters. -/
theorem utf8_eq_flatMap (s : String) : utf8 s = s.toList.flatMap String.utf8EncodeChar := by
  rw [utf8, String.toUTF8_eq_toByteArray, ← String.utf8Encode_toList, List.utf8Encode,
    List.toList_data_toByteArray]

/-- A continuation byte has the upper bits `10`, and carries the six others. -/
theorem continuation?_eq_some_iff {b : UInt8} {bits : Nat} :
    continuation? b = some bits ↔ b.toNat / 64 = 2 ∧ bits = b.toNat % 64 := by
  unfold continuation?
  split
  · rename_i lead
    simp [lead, eq_comm]
  · rename_i other
    simp [other]

/-- A code stands for the character with this code, unless fewer bytes would have been enough. -/
theorem charFrom?_eq_some_iff {least code : Nat} {c : Char} :
    charFrom? least code = some c ↔ c.toNat = code ∧ least ≤ code := by
  have read (valid : code.isValidChar) : Char.ofNatAux code valid = c ↔ c.toNat = code := by
    constructor
    · rintro rfl
      rfl
    · rintro rfl
      exact Char.ext (UInt32.toNat_inj.1 rfl)
  rw [charFrom?]
  by_cases valid : code.isValidChar
  · rw [dif_pos valid]
    by_cases le : least ≤ code
    · rw [if_pos le, Option.some.injEq, read valid]
      exact ⟨fun same => ⟨same, le⟩, And.left⟩
    · rw [if_neg le]
      exact ⟨fun found => absurd found.symm (Option.some_ne_none c), fun found => absurd found.2 le⟩
  · rw [dif_neg valid]
    refine ⟨fun found => absurd found.symm (Option.some_ne_none c), fun found => absurd ?_ valid⟩
    rw [← found.1]
    exact c.valid

/-- A byte is determined by its number. -/
theorem ofNat_eq_of_toNat (b : UInt8) {n : Nat} (same : n = b.toNat) : UInt8.ofNat n = b :=
  same ▸ UInt8.ofNat_toNat

/-- A well-formed sequence is the bytes of the character that it is read as. -/
theorem utf8EncodeChar_of_sequence? {b : UInt8} {rest : List UInt8} {c : Char} {more : Nat}
    (found : sequence? b rest = some (c, more)) :
    ∃ tail after, rest = tail ++ after ∧ tail.length = more ∧ String.utf8EncodeChar c = b :: tail := by
  have byte := b.toNat_lt
  revert found
  -- The number of bytes is read off the first one, and it is that of the character.
  fun_cases sequence? b rest
  all_goals simp only [bind, Option.bind_eq_some_iff, continuation?_eq_some_iff,
    Option.map_eq_some_iff, charFrom?_eq_some_iff, Prod.mk.injEq, Char.toNat, reduceCtorEq,
    false_imp_iff]
  case case1 lead low =>
    rintro ⟨c, ⟨code, -⟩, rfl, rfl⟩
    refine ⟨[], rest, rfl, rfl, ?_⟩
    rw [String.utf8EncodeChar, if_pos (by omega), ofNat_eq_of_toNat b code]
  case case2 lead _ _ b1 after =>
    rintro ⟨_, ⟨mark, rfl⟩, c, ⟨code, least⟩, rfl, rfl⟩
    refine ⟨[b1], after, rfl, rfl, ?_⟩
    rw [String.utf8EncodeChar, if_neg (by omega), if_pos (by omega), ofNat_eq_of_toNat b (by omega),
      ofNat_eq_of_toNat b1 (by omega)]
  case case4 lead _ _ _ b1 b2 after =>
    rintro ⟨_, ⟨mark, rfl⟩, _, ⟨mark', rfl⟩, c, ⟨code, least⟩, rfl, rfl⟩
    refine ⟨[b1, b2], after, rfl, rfl, ?_⟩
    rw [String.utf8EncodeChar, if_neg (by omega), if_neg (by omega), if_pos (by omega),
      ofNat_eq_of_toNat b (by omega), ofNat_eq_of_toNat b1 (by omega),
      ofNat_eq_of_toNat b2 (by omega)]
  case case6 lead _ _ _ _ b1 b2 b3 after =>
    rintro ⟨_, ⟨mark, rfl⟩, _, ⟨mark', rfl⟩, _, ⟨mark'', rfl⟩, c, ⟨code, least⟩, rfl, rfl⟩
    refine ⟨[b1, b2, b3], after, rfl, rfl, ?_⟩
    rw [String.utf8EncodeChar, if_neg (by omega), if_neg (by omega), if_neg (by omega),
      ofNat_eq_of_toNat b (by omega), ofNat_eq_of_toNat b1 (by omega),
      ofNat_eq_of_toNat b2 (by omega), ofNat_eq_of_toNat b3 (by omega)]

/-- A number below 256 is that of a byte. -/
theorem toNat_ofNat_of_lt {n : Nat} (small : n < 256) : (UInt8.ofNat n).toNat = n := by
  rw [UInt8.toNat_ofNat', Nat.mod_eq_of_lt small]

/-- Six bits can be read from the continuation byte that carries them. -/
theorem continuation?_ofNat {n : Nat} (small : n < 64) :
    continuation? (UInt8.ofNat (n + 0x80)) = some n := by
  rw [continuation?_eq_some_iff, toNat_ofNat_of_lt (by omega)]
  omega

/-- The bytes of a character are a well-formed sequence, and are read as the character. -/
theorem sequence?_of_utf8EncodeChar {b : UInt8} {tail : List UInt8} {c : Char}
    (bytes : String.utf8EncodeChar c = b :: tail) (after : List UInt8) :
    sequence? b (tail ++ after) = some (c, tail.length) := by
  have valid : c.val.toNat < 0x110000 := c.valid.elim (by omega) And.right
  revert bytes
  fun_cases String.utf8EncodeChar c
  all_goals
    rw [List.cons.injEq]
    rintro ⟨rfl, rfl⟩
    unfold sequence?
    rw [toNat_ofNat_of_lt (by omega)]
    dsimp only [List.cons_append, List.nil_append]
  case case1 v one =>
    have read : charFrom? 0 v = some c := charFrom?_eq_some_iff.2 ⟨rfl, Nat.zero_le _⟩
    rw [if_pos (by omega), read]
    rfl
  case case2 v _ two =>
    have read : charFrom? 0x80 ((v / 64 % 0x20 + 0xc0) % 32 * 64 + v % 64) = some c :=
      charFrom?_eq_some_iff.2 ⟨by show v = _; omega, by omega⟩
    rw [if_neg (by omega), if_pos (by omega), continuation?_ofNat (by omega)]
    simp only [bind, Option.bind_some, read]
    rfl
  case case3 v _ _ three =>
    have read : charFrom? 0x800
        (((v / 4096 % 0x10 + 0xe0) % 16 * 64 + v / 64 % 64) * 64 + v % 64) = some c :=
      charFrom?_eq_some_iff.2 ⟨by show v = _; omega, by omega⟩
    rw [if_neg (by omega), if_neg (by omega), if_pos (by omega), continuation?_ofNat (by omega),
      continuation?_ofNat (by omega)]
    simp only [bind, Option.bind_some, read]
    rfl
  case case4 v _ _ _ =>
    have read : charFrom? 0x10000 ((((v / 262144 % 0x08 + 0xf0) % 8 * 64 + v / 4096 % 64) * 64 +
        v / 64 % 64) * 64 + v % 64) = some c :=
      charFrom?_eq_some_iff.2 ⟨by show v = _; omega, by omega⟩
    rw [if_neg (by omega), if_neg (by omega), if_neg (by omega), if_pos (by omega),
      continuation?_ofNat (by omega), continuation?_ofNat (by omega), continuation?_ofNat (by omega)]
    simp only [bind, Option.bind_some, read]
    rfl

/-- Bytes that are to be passed over are passed over. -/
theorem decodeAfter_append (tail after : List UInt8) :
    decodeAfter tail.length (tail ++ after) = decodeAfter 0 after := by
  induction tail with
  | nil => rfl
  | cons b tail ih => exact ih

/-- Reading the bytes of some characters gives the characters. -/
theorem decodeAfter_flatMap (chars : List Char) :
    decodeAfter 0 (chars.flatMap String.utf8EncodeChar) = chars := by
  induction chars with
  | nil => rfl
  | cons c chars ih =>
      obtain ⟨b, tail, bytes⟩ := List.exists_cons_of_ne_nil (String.utf8EncodeChar_ne_nil (c := c))
      rw [List.flatMap_cons, bytes, List.cons_append, decodeAfter, sequence?_of_utf8EncodeChar bytes]
      dsimp only
      rw [decodeAfter_append, ih]

/-- Reading the bytes of a text gives the text back. -/
theorem decode_utf8 (s : String) : decode (utf8 s) = s := by
  rw [decode, utf8_eq_flatMap, decodeAfter_flatMap, String.ofList_toList]

/-- Characters of which none replaces a byte have the bytes that they were read from. -/
theorem flatMap_decodeAfter {skip : Nat} {bytes : List UInt8}
    (faithful : replacement ∉ decodeAfter skip bytes) :
    (decodeAfter skip bytes).flatMap String.utf8EncodeChar = bytes.drop skip := by
  fun_induction decodeAfter skip bytes with
  | case1 => simp
  | case2 skip b rest ih => exact ih faithful
  | case3 b rest c skip found ih =>
      obtain ⟨tail, after, rfl, rfl, bytes⟩ := utf8EncodeChar_of_sequence? found
      rw [List.flatMap_cons, bytes, ih (List.not_mem_of_not_mem_cons faithful), List.drop_left]
      rfl
  | case4 => exact absurd List.mem_cons_self faithful

/-- If no replacement character is read, the bytes are those of the text. -/
theorem utf8_decode {bytes : List UInt8} (faithful : replacement ∉ (decode bytes).toList) :
    utf8 (decode bytes) = bytes := by
  rw [decode, String.toList_ofList] at faithful
  rw [utf8_eq_flatMap, decode, String.toList_ofList, flatMap_decodeAfter faithful, List.drop_zero]

end BoxCalculus.Text
