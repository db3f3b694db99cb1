/-!
# Reading bytes as text

Text arrives as bytes in UTF-8. Each byte that belongs to no well-formed sequence is read as one
replacement character, so every sequence of bytes is some text.
-/

namespace BoxCalculus.Text

/-- The character that stands for a byte outside every well-formed sequence. -/
def replacement : Char := '\ufffd'

/-- The six low bits of a continuation byte. -/
def continuation? (b : UInt8) : Option Nat :=
  if b.toNat / 64 = 2 then some (b.toNat % 64) else none

/-- The character with this code point, provided that the code point is at least `least`, that it
is no surrogate and that it lies in the range of characters. -/
def charFrom? (least code : Nat) : Option Char :=
  if h : code.isValidChar then
    if least ≤ code then some (Char.ofNatAux code h) else none
  else none

/-- The character at the front of some bytes, and how many bytes beyond the first it takes. -/
def sequence? (b : UInt8) (rest : List UInt8) : Option (Char × Nat) :=
  let lead := b.toNat
  if lead < 0x80 then (charFrom? 0 lead).map (·, 0)
  else if lead / 32 = 6 then
    match rest with
    | b1 :: _ => do
        let c1 ← continuation? b1
        (charFrom? 0x80 (lead % 32 * 64 + c1)).map (·, 1)
    | _ => none
  else if lead / 16 = 14 then
    match rest with
    | b1 :: b2 :: _ => do
        let c1 ← continuation? b1
        let c2 ← continuation? b2
        (charFrom? 0x800 ((lead % 16 * 64 + c1) * 64 + c2)).map (·, 2)
    | _ => none
  else if lead / 8 = 30 then
    match rest with
    | b1 :: b2 :: b3 :: _ => do
        let c1 ← continuation? b1
        let c2 ← continuation? b2
        let c3 ← continuation? b3
        (charFrom? 0x10000 (((lead % 8 * 64 + c1) * 64 + c2) * 64 + c3)).map (·, 3)
    | _ => none
  else none

/-- Read bytes as characters after passing over the first `skip` of them. -/
def decodeAfter : Nat → List UInt8 → List Char
  | _, [] => []
  | skip + 1, _ :: rest => decodeAfter skip rest
  | 0, b :: rest =>
      match sequence? b rest with
      | some (c, skip) => c :: decodeAfter skip rest
      | none => replacement :: decodeAfter 0 rest

/-- Read bytes as text. -/
def decode (bytes : List UInt8) : String :=
  String.ofList (decodeAfter 0 bytes)

end BoxCalculus.Text
