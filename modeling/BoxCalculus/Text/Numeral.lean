/-!
# Numerals

An integer may be written in base two, eight or sixteen after a mark that starts with a zero; a zero
alone is a mark of base eight. Underscores may stand between digits and after the mark.
-/

namespace BoxCalculus.Text

/-- Why a text is no integer of 64 bits. -/
inductive NumeralFault where
  | malformed
  | outOfRange
  deriving DecidableEq

/-- The wording of a fault. -/
def NumeralFault.message : NumeralFault → String
  | malformed => "invalid syntax"
  | outOfRange => "value out of range"

/-- The value of a digit in bases up to thirty-six. -/
def digitValue? (c : Char) : Option Nat :=
  if c.isDigit then some (c.toNat - '0'.toNat)
  else if c.isAlpha then some (c.toLower.toNat - 'a'.toNat + 10)
  else none

/-- The number that hexadecimal digits stand for. -/
def hexValue? (digits : List Char) : Option Nat :=
  digits.foldlM (fun n c => do
    let d ← digitValue? c
    if d < 16 then some (16 * n + d) else none) 0

/-- The number that digits stand for after the number `before`. It has to fit in 64 bits at every
digit. -/
def magnitude (base : Nat) : (before : Nat) → List Char → Except NumeralFault Nat
  | before, [] => .ok before
  | before, c :: rest =>
      if c = '_' then magnitude base before rest
      else
        match digitValue? c with
        | none => .error .malformed
        | some d =>
            if base ≤ d then .error .malformed
            else if 0x1_0000_0000_0000_0000 ≤ before * base + d then .error .outOfRange
            else magnitude base (before * base + d) rest

/-- Does each underscore stand between two digits? -/
def isSeparated : (afterDigit : Bool) → List Char → Bool
  | afterDigit, [] => afterDigit
  | afterDigit, c :: rest =>
      if c = '_' then afterDigit && isSeparated false rest else isSeparated true rest

/-- The base of a numeral without a sign, and its digits after the mark. -/
def baseAndDigits : List Char → Nat × List Char
  | '0' :: mark :: digit :: rest =>
      if mark.toLower = 'b' then (2, digit :: rest)
      else if mark.toLower = 'o' then (8, digit :: rest)
      else if mark.toLower = 'x' then (16, digit :: rest)
      else (8, mark :: digit :: rest)
  | '0' :: rest => (8, rest)
  | cs => (10, cs)

/-- The integer that a text stands for. -/
def integer (s : String) : Except NumeralFault Int := do
  let (negative, body) := match s.toList with
    | '-' :: rest => (true, rest)
    | '+' :: rest => (false, rest)
    | cs => (false, cs)
  if body.isEmpty then throw .malformed
  let (base, digits) := baseAndDigits body
  let n ← magnitude base 0 digits
  if digits.contains '_' ∧ !isSeparated (body.head? == some '0') digits then throw .malformed
  let value : Int := if negative then -(n : Int) else n
  if value < -0x8000_0000_0000_0000 ∨ 0x8000_0000_0000_0000 ≤ value then throw .outOfRange
  pure value

/-- The truth value that a text stands for. -/
def boolean? (s : String) : Option Bool :=
  if ["1", "t", "T", "TRUE", "true", "True"].contains s then some true
  else if ["0", "f", "F", "FALSE", "false", "False"].contains s then some false
  else none

end BoxCalculus.Text
