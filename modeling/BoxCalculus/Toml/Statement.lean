import BoxCalculus.Toml.Key
import BoxCalculus.Toml.Quoted

/-!
# Statements of TOML

A file is a sequence of statements, each on a line of its own. One gives a value to a key, the other
is the header of a table or of an element of an array of tables, to which the statements after it
belong. A key has one or more parts.
-/

namespace BoxCalculus.Toml

/-- A written value. -/
inductive Literal where
  | string (text : String)
  | scalar (value : Scalar)
  | array (items : List Literal)
  | table (fields : List (List String × Literal))

/-- A statement. -/
inductive Statement where
  | assignment (key : List String) (value : Literal)
  | header (key : List String) (element : Bool)

/-- Leave out the blanks at the start. -/
def dropBlanks (cs : List Char) : List Char :=
  cs.dropWhile isBlank

/-- Leave out the rest of a line, but not its end. -/
def dropLine (cs : List Char) : List Char :=
  cs.dropWhile fun c => !isLineEnd c

/-- Leave out blanks, line ends and comments at the start. The number counts down the characters
that are left. -/
def dropSpace : Nat → List Char → List Char
  | 0, cs => cs
  | fuel + 1, cs =>
      match cs.dropWhile fun c => isBlank c || isLineEnd c with
      | '#' :: rest => dropSpace fuel (dropLine rest)
      | rest => rest

/-- Read a part of a key. -/
def readKeyPart? (cs : List Char) : Option (String × List Char) :=
  match cs with
  | [] => none
  | c :: rest =>
      if c = '"' ∨ c = '\'' then
        (readLine? c rest.length rest).map fun (text, rest) => (String.ofList text, rest)
      else if inBareKey c then
        some (String.ofList (cs.takeWhile inBareKey), cs.dropWhile inBareKey)
      else none

/-- Read a key. The number counts down the parts. What is left does not start with a blank. -/
def readKey? : Nat → List Char → Option (List String × List Char)
  | 0, _ => none
  | fuel + 1, cs => do
      let (part, rest) ← readKeyPart? (dropBlanks cs)
      match dropBlanks rest with
      | '.' :: rest =>
          let (parts, rest) ← readKey? fuel rest
          pure (part :: parts, rest)
      | rest => pure ([part], rest)

mutual

/-- Read a value. In this and the following readers the number counts down the characters that are
left. -/
def readValue? : Nat → List Char → Option (Literal × List Char)
  | 0, _ => none
  | fuel + 1, cs =>
      match dropBlanks cs with
      | '"' :: rest => (readString? ('"' :: rest)).map fun (text, rest) => (.string text, rest)
      | '\'' :: rest => (readString? ('\'' :: rest)).map fun (text, rest) => (.string text, rest)
      | '[' :: rest => do
          let (items, rest) ← readItems? fuel rest
          pure (.array items, rest)
      | '\x7b' :: rest => do
          let (fields, rest) ← readFields? fuel rest
          pure (.table fields, rest)
      | rest => (readScalar? rest).map fun (value, rest) => (.scalar value, rest)

/-- Read the items of an array and the closing bracket. The last item may have a comma after it. -/
def readItems? : Nat → List Char → Option (List Literal × List Char)
  | 0, _ => none
  | fuel + 1, cs =>
      match dropSpace fuel cs with
      | ']' :: rest => some ([], rest)
      | rest => do
          let (item, rest) ← readValue? fuel rest
          match dropSpace fuel rest with
          | ',' :: rest =>
              let (items, rest) ← readItems? fuel rest
              pure (item :: items, rest)
          | ']' :: rest => pure ([item], rest)
          | _ => none

/-- Read the fields of a table that is written as a value, and the closing brace. The last field may
have a comma after it. -/
def readFields? : Nat → List Char → Option (List (List String × Literal) × List Char)
  | 0, _ => none
  | fuel + 1, cs =>
      match dropSpace fuel cs with
      | '\x7d' :: rest => some ([], rest)
      | rest => do
          let (key, rest) ← readKey? fuel rest
          let '=' :: rest := rest | none
          let (value, rest) ← readValue? fuel rest
          match dropSpace fuel rest with
          | ',' :: rest =>
              let (fields, rest) ← readFields? fuel rest
              pure ((key, value) :: fields, rest)
          | '\x7d' :: rest => pure ([(key, value)], rest)
          | _ => none

end

/-- Read a statement. -/
def readStatement? (fuel : Nat) : List Char → Option (Statement × List Char)
  | '[' :: '[' :: rest => do
      let (key, rest) ← readKey? fuel rest
      let ']' :: ']' :: rest := rest | none
      pure (.header key true, rest)
  | '[' :: rest => do
      let (key, rest) ← readKey? fuel rest
      let ']' :: rest := rest | none
      pure (.header key false, rest)
  | rest => do
      let (key, rest) ← readKey? fuel rest
      let '=' :: rest := rest | none
      let (value, rest) ← readValue? fuel rest
      pure (.assignment key value, rest)

/-- Read all statements. After each one the line ends, but for a comment. -/
def readStatements? : Nat → List Char → Option (List Statement)
  | 0, _ => none
  | fuel + 1, cs =>
      match dropSpace fuel cs with
      | [] => some []
      | rest => do
          let (statement, rest) ← readStatement? fuel rest
          let rest := match dropBlanks rest with
            | '#' :: rest => dropLine rest
            | rest => rest
          if rest.isEmpty ∨ (rest.head?.any isLineEnd) then
            let statements ← readStatements? fuel rest
            pure (statement :: statements)
          else none

/-- Is every control character a tab or part of a line end? -/
def isClean : List Char → Bool
  | '\r' :: '\n' :: rest => isClean rest
  | c :: rest => (c == '\t' || c == '\n' || (0x20 ≤ c.toNat && c.toNat != 0x7f)) && isClean rest
  | [] => true

/-- The statements of a file, which may start with a byte order mark. -/
def statements? (text : String) : Option (List Statement) :=
  let cs := match text.toList with
    | '\ufeff' :: rest => rest
    | cs => cs
  if isClean cs then readStatements? (cs.length + 1) cs else none

end BoxCalculus.Toml
