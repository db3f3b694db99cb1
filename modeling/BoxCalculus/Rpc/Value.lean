import BoxCalculus.Text.Numeral
import BoxCalculus.Text.Quoted

/-!
# JSON values

Requests and responses are JSON. Numbers and strings are kept as they are written, and an object
keeps its members in the order in which they are written, even if two of them have the same name.
-/

namespace BoxCalculus.Rpc

/-- A JSON value. -/
inductive Value where
  | null
  | boolean (value : Bool)
  | number (written : String)
  /-- A string as it is written between its quotes. -/
  | string (written : String)
  | array (items : List Value)
  | object (members : List (String × Value))

namespace Value

/-- Is the character a blank? -/
def isBlank (c : Char) : Bool :=
  c == ' ' || c == '\t' || c == '\n' || c == '\r'

/-- Leave out the blanks at the start. -/
def dropBlanks (cs : List Char) : List Char :=
  cs.dropWhile isBlank

/-! ## Reading numbers -/

/-- What comes after one or more digits. -/
def afterDigits? : List Char → Option (List Char)
  | c :: rest => if c.isDigit then some (rest.dropWhile Char.isDigit) else none
  | [] => none

/-- What comes after the whole part of a number, which has no leading zeros. -/
def afterWhole? : List Char → Option (List Char)
  | '0' :: rest => some rest
  | cs => afterDigits? cs

/-- What comes after a fraction, which may be missing. -/
def afterFraction? : List Char → Option (List Char)
  | '.' :: rest => afterDigits? rest
  | cs => some cs

/-- What comes after an exponent, which may be missing. -/
def afterExponent? : List Char → Option (List Char)
  | c :: rest =>
      if c = 'e' ∨ c = 'E' then
        match rest with
        | '+' :: rest => afterDigits? rest
        | '-' :: rest => afterDigits? rest
        | rest => afterDigits? rest
      else some (c :: rest)
  | [] => some []

/-- Is the word a number? -/
def isNumber (word : List Char) : Bool :=
  let magnitude := match word with
    | '-' :: rest => rest
    | cs => cs
  ((afterWhole? magnitude).bind afterFraction? |>.bind afterExponent?) == some []

/-- Can the character be part of a number? -/
def inNumber (c : Char) : Bool :=
  c.isDigit || c == '-' || c == '+' || c == '.' || c == 'e' || c == 'E'

/-! ## Reading strings -/

/-- Read the four hexadecimal digits of a code unit. -/
def readUnit? : List Char → Option (Nat × List Char)
  | a :: b :: c :: d :: rest => (Text.hexValue? [a, b, c, d]).map (·, rest)
  | _ => none

/-- The character for a code unit, together with a second unit if the two make up a surrogate pair.
A surrogate without its partner stands for the replacement character. -/
def readUnits (unit : Nat) (rest : List Char) : Char × List Char :=
  if unit < 0xD800 ∨ 0xE000 ≤ unit then (Char.ofNat unit, rest)
  else
    match rest with
    | '\\' :: 'u' :: more =>
        match readUnit? more with
        | some (low, rest') =>
            if unit < 0xDC00 ∧ 0xDC00 ≤ low ∧ low < 0xE000 then
              (Char.ofNat (0x10000 + (unit - 0xD800) * 0x400 + (low - 0xDC00)), rest')
            else ('\ufffd', rest)
        | none => ('\ufffd', rest)
    | _ => ('\ufffd', rest)

/-- Read an escape after its backslash. -/
def readEscape? : List Char → Option (Char × List Char)
  | '"' :: rest => some ('"', rest)
  | '\\' :: rest => some ('\\', rest)
  | '/' :: rest => some ('/', rest)
  | 'b' :: rest => some ('\x08', rest)
  | 'f' :: rest => some ('\x0c', rest)
  | 'n' :: rest => some ('\n', rest)
  | 'r' :: rest => some ('\r', rest)
  | 't' :: rest => some ('\t', rest)
  | 'u' :: rest => (readUnit? rest).map fun (unit, rest) => readUnits unit rest
  | _ => none

/-- The characters that stand for the written characters of a string. The number counts down the
characters that are left. -/
def unescapeUpTo? : Nat → List Char → Option (List Char)
  | _, [] => some []
  | 0, _ => none
  | fuel + 1, '\\' :: rest => do
      let (c, rest) ← readEscape? rest
      (unescapeUpTo? fuel rest).map (c :: ·)
  | fuel + 1, c :: rest =>
      if c.toNat < 0x20 then none else (unescapeUpTo? fuel rest).map (c :: ·)

/-- The text that a string stands for, unless it is written wrongly. -/
def unescape? (written : String) : Option String :=
  (unescapeUpTo? written.length written.toList).map String.ofList

/-- The part of a text up to the closing quote of a string, and what comes after the quote. -/
def splitString? : List Char → Option (List Char × List Char)
  | [] => none
  | '"' :: rest => some ([], rest)
  | '\\' :: c :: rest => (splitString? rest).map fun (written, rest) => ('\\' :: c :: written, rest)
  | c :: rest => (splitString? rest).map fun (written, rest) => (c :: written, rest)

/-- Read a string after its opening quote: as it is written, and the text that it stands for. -/
def readString? (cs : List Char) : Option (String × String × List Char) := do
  let (written, rest) ← splitString? cs
  let written := String.ofList written
  let text ← unescape? written
  pure (written, text, rest)

/-! ## Reading values -/

/-- How deep arrays and objects can lie in each other. -/
def maxDepth : Nat := 10000

mutual

/-- Read a value. In this and the following readers the first number counts down the characters that
are left, and the second the arrays and objects that may still be opened. -/
def read? : Nat → Nat → List Char → Option (Value × List Char)
  | 0, _, _ => none
  | fuel + 1, levels, cs =>
      match dropBlanks cs, levels with
      | 'n' :: 'u' :: 'l' :: 'l' :: rest, _ => some (.null, rest)
      | 't' :: 'r' :: 'u' :: 'e' :: rest, _ => some (.boolean true, rest)
      | 'f' :: 'a' :: 'l' :: 's' :: 'e' :: rest, _ => some (.boolean false, rest)
      | '"' :: rest, _ => do
          let (written, _, rest) ← readString? rest
          pure (.string written, rest)
      | '[' :: _, 0 => none
      | '[' :: rest, levels + 1 =>
          match dropBlanks rest with
          | ']' :: rest => some (.array [], rest)
          | rest => do
              let (items, rest) ← readItems? fuel levels rest
              pure (.array items, rest)
      | '\x7b' :: _, 0 => none
      | '\x7b' :: rest, levels + 1 =>
          match dropBlanks rest with
          | '\x7d' :: rest => some (.object [], rest)
          | rest => do
              let (members, rest) ← readMembers? fuel levels rest
              pure (.object members, rest)
      | rest, _ =>
          let word := rest.takeWhile inNumber
          if isNumber word then some (.number (String.ofList word), rest.dropWhile inNumber)
          else none

/-- Read the items of an array that is not empty, and the closing bracket. -/
def readItems? : Nat → Nat → List Char → Option (List Value × List Char)
  | 0, _, _ => none
  | fuel + 1, levels, cs => do
      let (item, rest) ← read? fuel levels cs
      match dropBlanks rest with
      | ',' :: rest =>
          let (items, rest) ← readItems? fuel levels rest
          pure (item :: items, rest)
      | ']' :: rest => pure ([item], rest)
      | _ => none

/-- Read the members of an object that is not empty, and the closing brace. -/
def readMembers? : Nat → Nat → List Char → Option (List (String × Value) × List Char)
  | 0, _, _ => none
  | fuel + 1, levels, cs => do
      let '"' :: rest := dropBlanks cs | none
      let (_, name, rest) ← readString? rest
      let ':' :: rest := dropBlanks rest | none
      let (value, rest) ← read? fuel levels rest
      match dropBlanks rest with
      | ',' :: rest =>
          let (members, rest) ← readMembers? fuel levels rest
          pure ((name, value) :: members, rest)
      | '\x7d' :: rest => pure ([(name, value)], rest)
      | _ => none

end

/-- The value that a text stands for. -/
def parse? (text : String) : Option Value := do
  let (value, rest) ← read? (text.length + 1) maxDepth text.toList
  if (dropBlanks rest).isEmpty then some value else none

/-! ## Writing values -/

/-- How a character is written in a string. -/
def escape (c : Char) : String :=
  if c = '"' then "\\\""
  else if c = '\\' then "\\\\"
  else if c.toNat < 0x20 then "\\u" ++ Text.hexadecimal 4 c.toNat
  else c.toString

/-- The string for a text. -/
def ofText (text : String) : Value :=
  .string (String.join (text.toList.map escape))

mutual

/-- A value as it is written, on one line. -/
def text : Value → String
  | null => "null"
  | boolean value => if value then "true" else "false"
  | number written => written
  | string written => "\"" ++ written ++ "\""
  | array items => "[" ++ ",".intercalate (texts items) ++ "]"
  | object members => "\x7b" ++ ",".intercalate (memberTexts members) ++ "\x7d"

/-- Values as they are written. -/
def texts : List Value → List String
  | [] => []
  | value :: rest => text value :: texts rest

/-- Members as they are written. -/
def memberTexts : List (String × Value) → List String
  | [] => []
  | (name, value) :: rest =>
      ("\"" ++ String.join (name.toList.map escape) ++ "\":" ++ text value) :: memberTexts rest

end

end Value

end BoxCalculus.Rpc
