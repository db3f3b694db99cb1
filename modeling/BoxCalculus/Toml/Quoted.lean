import BoxCalculus.Toml.Scalar

/-!
# Strings of TOML

A string stands between quotes: double ones, in which a backslash starts an escape, or single ones,
in which every character stands for itself. Three quotes start a string of several lines, which may
itself hold and end with up to two quotes.
-/

namespace BoxCalculus.Toml

/-- The character with the number that hexadecimal digits stand for. -/
def charOfHex? (digits : List Char) : Option Char := do
  let n ← Text.hexValue? digits
  if n.isValidChar then some (Char.ofNat n) else none

/-- Read an escape after its backslash. -/
def readEscape? : List Char → Option (Char × List Char)
  | 'b' :: rest => some ('\x08', rest)
  | 't' :: rest => some ('\t', rest)
  | 'n' :: rest => some ('\n', rest)
  | 'f' :: rest => some ('\x0c', rest)
  | 'r' :: rest => some ('\r', rest)
  | 'e' :: rest => some ('\x1b', rest)
  | '"' :: rest => some ('"', rest)
  | '\\' :: rest => some ('\\', rest)
  | 'x' :: a :: b :: rest => (charOfHex? [a, b]).map (·, rest)
  | 'u' :: a :: b :: c :: d :: rest => (charOfHex? [a, b, c, d]).map (·, rest)
  | 'U' :: a :: b :: c :: d :: e :: f :: g :: h :: rest =>
      (charOfHex? [a, b, c, d, e, f, g, h]).map (·, rest)
  | _ => none

/-- Is the character a blank within a line? -/
def isBlank (c : Char) : Bool :=
  c == ' ' || c == '\t'

/-- Does the character end a line, alone or with the character after it? -/
def isLineEnd (c : Char) : Bool :=
  c == '\n' || c == '\r'

/-- What comes after a line that ends with a backslash: the blanks and line ends after it belong to
no line. -/
def afterContinuation? (cs : List Char) : Option (List Char) :=
  match cs.dropWhile isBlank with
  | c :: rest => if isLineEnd c then some (rest.dropWhile fun c => isBlank c || isLineEnd c) else none
  | [] => none

/-- Read the rest of a string within a line. The number counts down the characters that are left. -/
def readLine? (quote : Char) : Nat → List Char → Option (List Char × List Char)
  | 0, _ => none
  | _ + 1, [] => none
  | fuel + 1, c :: rest =>
      if c = quote then some ([], rest)
      else if isLineEnd c then none
      else if c = '\\' ∧ quote = '"' then do
        let (c, rest) ← readEscape? rest
        let (text, rest) ← readLine? quote fuel rest
        pure (c :: text, rest)
      else do
        let (text, rest) ← readLine? quote fuel rest
        pure (c :: text, rest)

/-- Read the rest of a string of several lines. The number counts down the characters that are
left. -/
def readLines? (quote : Char) : Nat → List Char → Option (List Char × List Char)
  | 0, _ => none
  | _ + 1, [] => none
  | fuel + 1, c :: rest =>
      if c = quote then
        match rest.takeWhile (· = quote) with
        | [] | [_] => do
            let (text, rest) ← readLines? quote fuel rest
            pure (c :: text, rest)
        | [_, _] => some ([], rest.drop 2)
        | [_, _, _] => some ([quote], rest.drop 3)
        | [_, _, _, _] => some ([quote, quote], rest.drop 4)
        | _ => none
      else if c = '\\' ∧ quote = '"' then
        match afterContinuation? rest with
        | some rest => readLines? quote fuel rest
        | none => do
            let (c, rest) ← readEscape? rest
            let (text, rest) ← readLines? quote fuel rest
            pure (c :: text, rest)
      else do
        let (text, rest) ← readLines? quote fuel rest
        pure (c :: text, rest)

/-- Leave out a line end at the start. -/
def dropLineEnd : List Char → List Char
  | '\n' :: rest => rest
  | '\r' :: '\n' :: rest => rest
  | cs => cs

/-- Read a string from its opening quote. -/
def readString? : List Char → Option (String × List Char)
  | a :: b :: c :: rest =>
      let result :=
        if a = b ∧ b = c then readLines? a rest.length (dropLineEnd rest)
        else readLine? a (rest.length + 2) (b :: c :: rest)
      result.map fun (text, rest) => (String.ofList text, rest)
  | [a, b] => if a = b then some ("", []) else none
  | _ => none

end BoxCalculus.Toml
