import BoxCalculus.Text.Digit
import BoxCalculus.Text.Letter

/-!
# Names

A name starts with a letter or an underscore and goes on with letters, underscores, digits and
primes. The keywords of the written form are not names.
-/

namespace BoxCalculus

/-- The words the written form reserves. -/
def keywords : List String :=
  ["Type", "Box", "box", "pair", "split", "as", "return", "with", "case", "of", "data", "dup",
    "let", "in"]

/-- Can the character start a name? -/
def isNameStart (c : Char) : Bool :=
  c == '_' || Text.isLetter c

/-- Can the character stand in a name after its first? -/
def isNamePart (c : Char) : Bool :=
  isNameStart c || Text.isDigit c || c == '\''

/-- Does the text have the form of a word, be it a name or a keyword? -/
def isWord (s : String) : Bool :=
  match s.toList with
  | [] => false
  | c :: rest => isNameStart c && rest.all isNamePart

/-- Can the text be written as the name of a variable, a reference or a constructor? -/
def isName (s : String) : Bool :=
  isWord s && !keywords.contains s

end BoxCalculus
