/-!
# Pieces of text

A text falls into pieces at each occurrence of a separating character: the lines of a file, the
components of a path.
-/

namespace BoxCalculus.Text

/-- The pieces of a text between occurrences of a separator. There is always at least one. -/
def pieces (separator : Char) : List Char → List (List Char)
  | [] => [[]]
  | c :: rest =>
      if c = separator then [] :: pieces separator rest
      else match pieces separator rest with
        | [] => [[c]]
        | piece :: more => (c :: piece) :: more

/-- There is always a piece. -/
theorem pieces_ne_nil (separator : Char) (cs : List Char) : pieces separator cs ≠ [] := by
  cases cs with
  | nil => simp [pieces]
  | cons c rest =>
      unfold pieces
      split
      · simp
      · split <;> simp

end BoxCalculus.Text
