import BoxCalculus.Book.Expansion
import BoxCalculus.Kernel

/-!
# Checking definitions

An annotation has to be a type, and the term of an annotated definition has to have that type. The
type of any other definition has to be inferable. Terms and annotations are expanded before they are
checked.
-/

namespace BoxCalculus

/-- A definition that could not be checked, and why. -/
structure DefinitionError where
  name : String
  pos : Pos
  cause : DefinitionFailure

/-- The wording of the error. There is none if a term in it cannot be written. -/
def DefinitionError.message? (e : DefinitionError) : Option String :=
  e.cause.message?.map fun cause => e.pos.text ++ ": " ++ e.name ++ ": " ++ cause

/-- Why a name could not be checked. -/
inductive CheckError where
  | undefined (name : String)
  | definition (e : DefinitionError)

namespace Book

/-- The type of a definition over a book: its annotation, or the type that is inferred. -/
def typeOf (book : Book) (k : Kernel) (canceled : Bool) (definition : Definition) :
    Except DefinitionFailure Term := do
  let body ← book.expand definition.term
  match definition.type? with
  | none => (k.infer canceled body).mapError .kernel
  | some annotation =>
      let type ← book.expand annotation
      (k.check canceled type .univ).mapError .kernel
      (k.check canceled body type).mapError .kernel
      pure annotation

/-- Check a definition against a book without adding it. -/
def checkDefinition (book : Book) (k : Kernel) (canceled : Bool) (definition : Definition) :
    Except DefinitionError Term :=
  (book.typeOf k canceled definition).mapError (⟨definition.name, definition.pos, ·⟩)

/-- Check the definition of a name. -/
def check (book : Book) (k : Kernel) (canceled : Bool) (name : String) : Except CheckError Term :=
  match book.find? name with
  | none => .error (.undefined name)
  | some definition => (book.checkDefinition k canceled definition).mapError .definition

/-- Check every definition, in order. A run that has been canceled checks none. -/
def checkAll (book : Book) (k : Kernel) (canceled : Bool) :
    Except Stop (List (String × Except DefinitionError Term)) :=
  if canceled then .error .canceled
  else .ok (book.definitions.map fun definition =>
    (definition.name, book.checkDefinition k canceled definition))

end Book

/-- The wording of the error. There is none if a term in it cannot be written. -/
def CheckError.message? : CheckError → Option String
  | undefined name => some (Text.quoted name ++ " is not defined")
  | definition e => e.message?

end BoxCalculus
