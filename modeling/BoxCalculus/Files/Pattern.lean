import BoxCalculus.Text.Utf8

/-!
# Patterns of file names

In a pattern `*` stands for any run of bytes without a slash, `?` for one character that is no slash,
and a class in brackets for one character that lies in one of its ranges, or in none of them after
`^`. A backslash takes away the meaning of the character after it.

A run is as short as the parts up to the next run allow, and it stays so whatever comes after them. A
run may end inside a character. The bytes that are left of that character then count as characters
of their own.
-/

namespace BoxCalculus

/-- A part of a pattern. -/
inductive PatternPart where
  | run
  | one
  | literal (c : Char)
  | ranges (negated : Bool) (ranges : List (Char × Char))
  deriving DecidableEq

namespace Pattern

/-- A character of a class, which may be escaped. The class has to go on after it. -/
def classChar? : List Char → Option (Char × List Char)
  | '\\' :: c :: next :: rest => some (c, next :: rest)
  | '\\' :: _ => none
  | c :: next :: rest => if c = '-' ∨ c = ']' then none else some (c, next :: rest)
  | _ => none

/-- The ranges of a class up to the closing bracket, which cannot come first. The number counts down
the characters that are left. -/
def classRanges? : Nat → (seen : List (Char × Char)) → List Char →
    Option (List (Char × Char) × List Char)
  | 0, _, _ => none
  | fuel + 1, seen, cs =>
      match cs, seen with
      | ']' :: rest, _ :: _ => some (seen, rest)
      | _, _ => do
          let (low, rest) ← classChar? cs
          match rest with
          | '-' :: rest =>
              let (high, rest) ← classChar? rest
              classRanges? fuel ((low, high) :: seen) rest
          | _ => classRanges? fuel ((low, low) :: seen) rest

/-- The parts of a pattern. The number counts down the characters that are left; there are no parts
if the pattern is malformed. -/
def partsUpTo? : Nat → List Char → Option (List PatternPart)
  | _, [] => some []
  | 0, _ => none
  | fuel + 1, '*' :: rest => (partsUpTo? fuel rest).map (.run :: ·)
  | fuel + 1, '?' :: rest => (partsUpTo? fuel rest).map (.one :: ·)
  | _ + 1, ['\\'] => none
  | fuel + 1, '\\' :: c :: rest => (partsUpTo? fuel rest).map (.literal c :: ·)
  | fuel + 1, '[' :: rest => do
      let (negated, rest) := match rest with
        | '^' :: rest => (true, rest)
        | _ => (false, rest)
      let (ranges, rest) ← classRanges? fuel [] rest
      (partsUpTo? fuel rest).map (.ranges negated ranges :: ·)
  | fuel + 1, c :: rest => (partsUpTo? fuel rest).map (.literal c :: ·)

/-- The parts of a pattern, if it is well formed. -/
def parts? (pattern : String) : Option (List PatternPart) :=
  partsUpTo? pattern.length pattern.toList

/-! ## Matching -/

/-- The byte of a slash. -/
def slash : UInt8 := 0x2f

/-- The character at the start of a text, and what comes after it. -/
def firstChar? : List UInt8 → Option (Char × List UInt8)
  | [] => none
  | b :: rest =>
      match Text.sequence? b rest with
      | some (c, more) => some (c, rest.drop more)
      | none => some (Text.replacement, rest)

/-- What is left of a text after some bytes at its start. -/
def afterBytes? : (expected text : List UInt8) → Option (List UInt8)
  | [], text => some text
  | _ :: _, [] => none
  | b :: expected, c :: text => if b = c then afterBytes? expected text else none

/-- What is left of a text after the parts of a pattern up to the first run. There is nothing to say
if they do not match. -/
def afterParts? : List PatternPart → List UInt8 → Option (List UInt8)
  | [], text => some text
  | .run :: _, text => some text
  | .one :: parts, text => do
      let (c, rest) ← firstChar? text
      if c = '/' then none else afterParts? parts rest
  | .literal c :: parts, text => do
      let rest ← afterBytes? (String.ofList [c]).toUTF8.toList text
      afterParts? parts rest
  | .ranges negated ranges :: parts, text => do
      let (c, rest) ← firstChar? text
      if (ranges.any fun (low, high) => decide (low ≤ c) && decide (c ≤ high)) = negated then none
      else afterParts? parts rest

/-- The parts of a pattern after the first run. There are none if there is no run. -/
def afterRun? : List PatternPart → Option (List PatternPart)
  | [] => none
  | .run :: parts => some parts
  | _ :: parts => afterRun? parts

/-- What is left of a text after parts that follow a run. If they are the last parts, they have to
match to the end. -/
def afterRunParts? (parts : List PatternPart) (text : List UInt8) : Option (List UInt8) :=
  (afterParts? parts text).filter fun rest => rest.isEmpty || (afterRun? parts).isSome

/-- What is left of a text after the shortest run such that the parts after it match, and after those
parts. -/
def afterShortestRun? (parts : List PatternPart) : List UInt8 → Option (List UInt8)
  | [] => afterRunParts? parts []
  | b :: text =>
      match afterRunParts? parts (b :: text) with
      | some rest => some rest
      | none => if b = slash then none else afterShortestRun? parts text

/-- Does a text as a whole match the parts of a pattern that come after a run? The number counts down
the runs that are left. -/
def acceptsAfterRun : Nat → List PatternPart → List UInt8 → Bool
  | _, [], text => !text.contains slash
  | 0, _, _ => false
  | runs + 1, parts, text =>
      match afterShortestRun? parts text, afterRun? parts with
      | none, _ => false
      | some rest, none => rest.isEmpty
      | some rest, some parts => acceptsAfterRun runs parts rest

/-- Does a name as a whole match the parts of a pattern? -/
def accepts (parts : List PatternPart) (name : String) : Bool :=
  match afterParts? parts name.toUTF8.toList, afterRun? parts with
  | none, _ => false
  | some rest, none => rest.isEmpty
  | some rest, some after => acceptsAfterRun parts.length after rest

/-- Can the text mean something else than itself as a pattern? -/
def isProper (pattern : String) : Bool :=
  pattern.toList.any fun c => c == '*' || c == '?' || c == '[' || c == '\\'

end Pattern

end BoxCalculus
