import BoxCalculus.Text.Quoted

/-!
# Keys of TOML

A key has parts with points between them. A part that is empty or has unusual characters is written
in quotes.
-/

namespace BoxCalculus.Toml

/-- Can the character be part of a key without quotes? -/
def inBareKey (c : Char) : Bool :=
  c.isAlphanum || c == '_' || c == '-'

/-- How a character is written in a quoted part of a key. -/
def keyEscape (c : Char) : String :=
  if c = '"' then "\\\""
  else if c = '\\' then "\\\\"
  else if c = '\x08' then "\\b"
  else if c = '\t' then "\\t"
  else if c = '\n' then "\\n"
  else if c = '\x0c' then "\\f"
  else if c = '\r' then "\\r"
  else if c.toNat < 0x20 ∨ c.toNat = 0x7f then "\\u" ++ Text.hexadecimal 4 c.toNat
  else c.toString

/-- A part of a key as it is written, in quotes if needed. -/
def keyPartText (part : String) : String :=
  if part ≠ "" ∧ part.toList.all inBareKey then part
  else "\"" ++ String.join (part.toList.map keyEscape) ++ "\""

/-- A key as it is written. -/
def keyText (key : List String) : String :=
  ".".intercalate (key.map keyPartText)

end BoxCalculus.Toml
