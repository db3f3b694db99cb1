import BoxCalculus.Source.Parser
import BoxCalculus.Term.Printing

/-!
# Formatting

Formatting reads the definitions of a source text and writes each on a line of its own. Comments and
the layout of the source are lost.
-/

namespace BoxCalculus

/-- A definition on a line of its own. There is none if one of its terms cannot be written. -/
def Definition.print? (definition : Definition) : Option String := do
  let type ← match definition.type? with
    | none => some ""
    | some type => type.print?.map (" : " ++ ·)
  let body ← definition.term.print?
  return definition.name ++ type ++ " = " ++ body ++ "\n"

/-- The definitions of a source text, one on each line. There is no such text if a term cannot be
written. -/
def formatSource (ar : Arith) (file source : String) : Except SyntaxError (Option String) := do
  let definitions ← parseFile ar file source
  pure ((definitions.mapM Definition.print?).map String.join)

end BoxCalculus
