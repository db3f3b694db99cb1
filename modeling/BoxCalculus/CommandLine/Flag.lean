import BoxCalculus.Text.Numeral
import BoxCalculus.Text.Quoted

/-!
# Flags

A flag is given by its name after two dashes or by its letter after one. A switch may stand alone;
any other flag has a value, after an equals sign or as the next argument. Letters of several flags
may share a dash. The arguments that are no flags may stand anywhere, and after two dashes there are
no more flags. Letters that start with `test.` are meant for a test runner and are passed over.
-/

namespace BoxCalculus.CommandLine

/-- What kind of value a flag has. -/
inductive FlagKind where
  | switch
  | number
  | text
  deriving DecidableEq

/-- A flag that can be given. -/
structure Flag where
  name : String
  letter? : Option Char := none
  kind : FlagKind

/-- The value of a flag. -/
inductive FlagValue where
  | switch (value : Bool)
  | number (value : Int)
  | text (value : String)

/-- The flags and the other arguments of a command line, in order. -/
structure Arguments where
  flags : List (String × FlagValue) := []
  plain : List String := []

namespace Flag

/-- Does the flag need a value? -/
def needsValue (flag : Flag) : Bool :=
  flag.kind ≠ .switch

/-- A flag in messages. -/
def title (flag : Flag) : String :=
  match flag.letter? with
  | some letter => "-" ++ letter.toString ++ ", --" ++ flag.name
  | none => "--" ++ flag.name

/-- The value of a flag that is given with a text. -/
def value (flag : Flag) (text : String) : Except String FlagValue :=
  let refused (reader problem : String) : Except String FlagValue :=
    .error ("invalid argument " ++ Text.quoted text ++ " for " ++ Text.quoted flag.title ++
      " flag: strconv." ++ reader ++ ": parsing " ++ Text.quoted text ++ ": " ++ problem)
  match flag.kind with
  | .text => .ok (.text text)
  | .switch =>
      match Text.boolean? text with
      | some value => .ok (.switch value)
      | none => refused "ParseBool" Text.NumeralFault.malformed.message
  | .number =>
      match Text.integer text with
      | .ok value => .ok (.number value)
      | .error fault => refused "ParseInt" fault.message

end Flag

/-- The flag with a name. -/
def named? (flags : List Flag) (name : String) : Option Flag :=
  flags.find? (·.name = name)

/-- The flag with a letter. -/
def lettered? (flags : List Flag) (letter : Char) : Option Flag :=
  flags.find? (·.letter? = some letter)

/-- Read a flag that is given by its name. The argument after it may be its value; the answer says
whether it is. -/
def readNamed (flags : List Flag) (body : List Char) (next? : Option String) :
    Except String (List (String × FlagValue) × Bool) := do
  if body.head? = some '-' ∨ body.head? = some '=' then
    throw ("bad flag syntax: --" ++ String.ofList body)
  let name := String.ofList (body.takeWhile (· ≠ '='))
  let some flag := named? flags name | throw ("unknown flag: --" ++ name)
  let (text, taken) ← match body.dropWhile (· ≠ '='), next? with
    | _ :: value, _ => pure (String.ofList value, false)
    | [], next? =>
        if !flag.needsValue then pure ("true", false)
        else match next? with
          | some next => pure (next, true)
          | none => throw ("flag needs an argument: --" ++ name)
  return ([(name, ← flag.value text)], taken)

/-- The first byte of a character, as a character. -/
def firstByte (c : Char) : Char :=
  match (String.ofList [c]).toUTF8.toList with
  | byte :: _ => Char.ofNat byte.toNat
  | [] => c

/-- A letter in messages. Only its first byte is looked at, and then the first byte of the character
with that number, so that an ASCII letter stays and all others look alike. -/
def shownLetter (c : Char) : Char :=
  firstByte (firstByte c)

/-- Are the letters meant for a test runner? -/
def isForTests (letters : List Char) : Bool :=
  "test.".toList.isPrefixOf letters

/-- Read flags that are given by their letters. The argument after them may be the value of the last
one; the answer says whether it is. -/
def readLetters (flags : List Flag) (next? : Option String) :
    List Char → Except String (List (String × FlagValue) × Bool)
  | [] => .ok ([], false)
  | letter :: rest => do
      if isForTests (letter :: rest) then return ([], false)
      let letters := String.ofList (letter :: rest)
      let shown := Text.quotedChar (shownLetter letter) ++ " in -" ++ letters
      let some flag := lettered? flags letter | throw ("unknown shorthand flag: " ++ shown)
      match rest with
      | '=' :: c :: value => return ([(flag.name, ← flag.value (String.ofList (c :: value)))], false)
      | rest =>
          if !flag.needsValue then
            let value ← flag.value "true"
            let (given, taken) ← readLetters flags next? rest
            return ((flag.name, value) :: given, taken)
          else if !rest.isEmpty then
            return ([(flag.name, ← flag.value (String.ofList rest))], false)
          else match next? with
            | some next => return ([(flag.name, ← flag.value next)], true)
            | none => throw ("flag needs an argument: " ++ shown)

/-- Read arguments. With `taken` the first of them is the value of a flag before it. -/
def readArguments (flags : List Flag) : (taken : Bool) → List String → Except String Arguments
  | _, [] => .ok {}
  | true, _ :: rest => readArguments flags false rest
  | false, argument :: rest =>
      match argument.toList with
      | ['-', '-'] => .ok { plain := rest }
      | '-' :: '-' :: body => do
          let (given, taken) ← readNamed flags body rest.head?
          let more ← readArguments flags taken rest
          pure { more with flags := given ++ more.flags }
      | '-' :: c :: letters => do
          let (given, taken) ← readLetters flags rest.head? (c :: letters)
          let more ← readArguments flags taken rest
          pure { more with flags := given ++ more.flags }
      | _ => do
          let more ← readArguments flags false rest
          pure { more with plain := argument :: more.plain }

namespace Arguments

/-- The values of a flag, in order. -/
def values (arguments : Arguments) (name : String) : List FlagValue :=
  arguments.flags.filterMap fun (other, value) => if other = name then some value else none

/-- The last value of a switch, if it is given. -/
def switch? (arguments : Arguments) (name : String) : Option Bool :=
  match (arguments.values name).getLast? with
  | some (.switch value) => some value
  | _ => none

/-- The last value of a number, if it is given. -/
def number? (arguments : Arguments) (name : String) : Option Int :=
  match (arguments.values name).getLast? with
  | some (.number value) => some value
  | _ => none

/-- All values of a text. -/
def texts (arguments : Arguments) (name : String) : List String :=
  (arguments.values name).filterMap fun
    | .text value => some value
    | _ => none

end Arguments

end BoxCalculus.CommandLine
