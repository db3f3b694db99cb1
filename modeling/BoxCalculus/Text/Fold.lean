/-!
# Letters without case

Two texts of ASCII letters are alike if they differ only in the case of letters. Two further
characters fold to ASCII letters: the long s and the sign of the kelvin.
-/

namespace BoxCalculus.Text

/-- The lower case of a character whose folded form is an ASCII letter. All other characters stay. -/
def fold (c : Char) : Char :=
  if c = 'ſ' then 's' else if c = 'K' then 'k' else c.toLower

/-- Do the texts differ at most in the case of letters, if one of them is ASCII? -/
def alike (a b : String) : Bool :=
  a.toList.map fold == b.toList.map fold

end BoxCalculus.Text
