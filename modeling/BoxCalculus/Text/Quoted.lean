import BoxCalculus.Text.Graphic

/-!
# Quoted text

Messages show text between quotes. Graphic characters stand for themselves; the quote and the
backslash are escaped by a backslash, the seven classic control characters by a letter, and every
other character by its code point in hexadecimal.
-/

namespace BoxCalculus.Text

/-- The digits of `n` in base sixteen, padded with zeros to at least `width` digits. -/
def hexadecimal (width n : Nat) : String :=
  let digits := Nat.toDigits 16 n
  String.ofList (List.replicate (width - digits.length) '0' ++ digits)

/-- A character as it stands between two marks `quote`. -/
def escape (quote c : Char) : String :=
  if c = quote ∨ c = '\\' then String.ofList ['\\', c]
  else if isGraphic c then c.toString
  else match c.toNat with
    | 0x07 => "\\a"
    | 0x08 => "\\b"
    | 0x09 => "\\t"
    | 0x0a => "\\n"
    | 0x0b => "\\v"
    | 0x0c => "\\f"
    | 0x0d => "\\r"
    | code =>
        if code < 0x80 then "\\x" ++ hexadecimal 2 code
        else if code < 0x10000 then "\\u" ++ hexadecimal 4 code
        else "\\U" ++ hexadecimal 8 code

/-- A text between double quotes. -/
def quoted (s : String) : String :=
  "\"" ++ String.join (s.toList.map (escape '"')) ++ "\""

/-- A character between single quotes. -/
def quotedChar (c : Char) : String :=
  "'" ++ escape '\'' c ++ "'"

end BoxCalculus.Text
