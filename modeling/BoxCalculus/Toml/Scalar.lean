import BoxCalculus.Text.Numeral

/-!
# Words of TOML

A value of TOML that is no string, array or table is a single word: a truth value, a number, a date
or a time. Numbers may have underscores between their digits. Of fractions, dates and times only
the form is of interest here.
-/

namespace BoxCalculus.Toml

/-- What a word means. -/
inductive Scalar where
  | boolean (value : Bool)
  | integer (value : Int)
  | fraction
  | moment
  deriving DecidableEq

/-- The number that digits stand for after the number `before`. An underscore stands between two
digits. -/
def numberFrom? (base : Nat) : (afterDigit : Bool) → (before : Nat) → List Char → Option Nat
  | afterDigit, before, [] => if afterDigit then some before else none
  | afterDigit, before, c :: rest =>
      if c = '_' then
        if afterDigit then numberFrom? base false before rest else none
      else
        match Text.digitValue? c with
        | some d => if d < base then numberFrom? base true (base * before + d) rest else none
        | none => none

/-- The number that digits stand for. -/
def number? (base : Nat) (cs : List Char) : Option Nat :=
  numberFrom? base false 0 cs

/-- A number without leading zeros. -/
def decimal? : List Char → Option Nat
  | '0' :: _ :: _ => none
  | cs => number? 10 cs

/-- Take off a sign. -/
def unsigned : List Char → Bool × List Char
  | '-' :: rest => (true, rest)
  | '+' :: rest => (false, rest)
  | cs => (false, cs)

/-- An integer, which has to fit in 64 bits. A sign is for decimal numbers only. -/
def integer? (cs : List Char) : Option Int := do
  let value : Int ← match cs with
    | '0' :: 'x' :: digits => number? 16 digits
    | '0' :: 'o' :: digits => number? 8 digits
    | '0' :: 'b' :: digits => number? 2 digits
    | cs =>
        let (negative, digits) := unsigned cs
        (decimal? digits).map fun n => if negative then -(n : Int) else n
  if -0x8000_0000_0000_0000 ≤ value ∧ value < 0x8000_0000_0000_0000 then some value else none

/-- Does `mantissa * 10 ^ exponent` round to a finite number of double precision? -/
def isFinite (mantissa : Nat) (exponent : Int) : Bool :=
  let magnitude : Int := (Nat.toDigits 10 mantissa).length + exponent
  let limit := Nat.pow 2 1024 - Nat.pow 2 970
  if mantissa = 0 ∨ magnitude < 300 then true
  else if magnitude > 320 then false
  else mantissa * Nat.pow 10 exponent.toNat < limit * Nat.pow 10 (-exponent).toNat

/-- Is the word a number with a fraction or an exponent, or one that is not finite? -/
def isFraction (cs : List Char) : Bool :=
  let cs := (unsigned cs).2
  if cs = ['i', 'n', 'f'] ∨ cs = ['n', 'a', 'n'] then true
  else
    let inNumber (c : Char) : Bool := c.isDigit || c == '_'
    let whole := cs.takeWhile inNumber
    let rest := cs.dropWhile inNumber
    let fraction := match rest with
      | '.' :: rest => rest.takeWhile inNumber
      | _ => []
    let afterFraction := match rest with
      | '.' :: rest => rest.dropWhile inNumber
      | rest => rest
    let exponent? : Option Int := match afterFraction with
      | [] => if fraction.isEmpty then none else some 0
      | c :: rest =>
          if c = 'e' ∨ c = 'E' then
            let (negative, digits) := unsigned rest
            (number? 10 digits).map fun n => if negative then -(n : Int) else n
          else none
    let fractionOk := rest.head? != some '.' || (number? 10 fraction).isSome
    match decimal? whole, exponent?, fractionOk with
    | some _, some exponent, true =>
        let digits := (whole ++ fraction).filter Char.isDigit
        isFinite ((number? 10 digits).getD 0) (exponent - (fraction.filter Char.isDigit).length)
    | _, _, _ => false

/-- The number that two digits stand for. -/
def pair? (a b : Char) : Option Nat :=
  if a.isDigit ∧ b.isDigit then number? 10 [a, b] else none

/-- The number of days of a month. -/
def daysIn (year month : Nat) : Nat :=
  if month = 2 then
    if year % 4 = 0 ∧ (year % 100 ≠ 0 ∨ year % 400 = 0) then 29 else 28
  else if month = 4 ∨ month = 6 ∨ month = 9 ∨ month = 11 then 30
  else 31

/-- What comes after a date. -/
def afterDate? : List Char → Option (List Char)
  | a :: b :: c :: d :: '-' :: e :: f :: '-' :: g :: h :: rest => do
      let century ← pair? a b
      let year ← pair? c d
      let month ← pair? e f
      let day ← pair? g h
      if 1 ≤ month ∧ month ≤ 12 ∧ 1 ≤ day ∧ day ≤ daysIn (century * 100 + year) month then
        some rest
      else none
  | _ => none

/-- What comes after the seconds of a time and their fraction, both of which may be missing. -/
def afterSeconds? : List Char → Option (List Char)
  | ':' :: a :: b :: rest => do
      let seconds ← pair? a b
      if seconds < 60 then
        match rest with
        | '.' :: c :: rest => if c.isDigit then some (rest.dropWhile Char.isDigit) else none
        | rest => some rest
      else none
  | rest => some rest

/-- What comes after a time. -/
def afterTime? : List Char → Option (List Char)
  | a :: b :: ':' :: c :: d :: rest => do
      let hours ← pair? a b
      let minutes ← pair? c d
      if hours < 24 ∧ minutes < 60 then afterSeconds? rest else none
  | _ => none

/-- Is the word the offset of a time zone, or empty? -/
def isOffset : List Char → Bool
  | [] => true
  | ['Z'] => true
  | ['z'] => true
  | [sign, a, b, ':', c, d] =>
      match pair? a b, pair? c d with
      | some hours, some minutes => (sign == '+' || sign == '-') && hours ≤ 24 && minutes ≤ 60
      | _, _ => false
  | _ => false

/-- Is the word a date, a time, or a date with a time? -/
def isMoment (cs : List Char) : Bool :=
  match afterDate? cs with
  | none => afterTime? cs == some []
  | some [] => true
  | some (separator :: rest) =>
      (separator == 'T' || separator == 't' || separator == ' ') &&
        match afterTime? rest with
        | some offset => isOffset offset
        | none => false

/-- The meaning of a word. -/
def scalar? (word : List Char) : Option Scalar :=
  if word = ['t', 'r', 'u', 'e'] then some (.boolean true)
  else if word = ['f', 'a', 'l', 's', 'e'] then some (.boolean false)
  else
    match integer? word with
    | some value => some (.integer value)
    | none =>
        if isFraction word then some .fraction
        else if isMoment word then some .moment
        else none

/-- Can the character be part of a word? -/
def inWord (c : Char) : Bool :=
  c.isAlphanum || c == '_' || c == '+' || c == '-' || c == '.' || c == ':'

/-- Read a word. A date and a time may have a blank between them. -/
def readScalar? (cs : List Char) : Option (Scalar × List Char) :=
  let word := cs.takeWhile inWord
  let rest := cs.dropWhile inWord
  match afterDate? word, rest with
  | some [], ' ' :: c :: more =>
      if c.isDigit then
        let time := (c :: more).takeWhile inWord
        (scalar? (word ++ ' ' :: time)).map (·, (c :: more).dropWhile inWord)
      else some (.moment, rest)
  | _, _ => (scalar? word).map (·, rest)

end BoxCalculus.Toml
