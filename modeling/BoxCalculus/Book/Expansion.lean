import BoxCalculus.Book.Basic
import BoxCalculus.Typing.Error

/-!
# Expanding references

Expansion replaces each reference to a definition by the definition's term, which is expanded in
turn. References that lead back to themselves are reported with the path they take; references to
unknown names stay.

An annotated definition whose term is a lambda without a domain is replaced by the identity on its
type, applied to the lambda, so that its type can still be inferred.
-/

namespace BoxCalculus

/-- Why a definition could not be expanded or checked. -/
inductive DefinitionFailure where
  /-- References that lead back to themselves. -/
  | cycle (path : List String)
  | kernel (failure : Failure)

/-- The wording of the reason. There is none if a term in it cannot be written. -/
def DefinitionFailure.message? : DefinitionFailure → Option String
  | cycle path => some ("reference cycle: " ++ " -> ".intercalate path)
  | kernel failure => failure.message?

mutual

/-- Replace each reference for which `unfold` has an answer, in the order in which subterms are
visited. -/
def Term.expandWith (unfold : String → Option (Except DefinitionFailure Term)) :
    Term → Except DefinitionFailure Term
  | .hole => pure .hole
  | .var index => pure (.var index)
  | .univ => pure .univ
  | .ref name => (unfold name).getD (pure (.ref name))
  | .pi erased name dom cod => do
      let dom ← dom.expandWith unfold
      let cod ← cod.expandWith unfold
      pure (.pi erased name dom cod)
  | .lam erased name dom body => do
      let dom ← dom.expandWith unfold
      let body ← body.expandWith unfold
      pure (.lam erased name dom body)
  | .app erased fn arg => do
      let fn ← fn.expandWith unfold
      let arg ← arg.expandWith unfold
      pure (.app erased fn arg)
  | .sigma erased name fst snd => do
      let fst ← fst.expandWith unfold
      let snd ← snd.expandWith unfold
      pure (.sigma erased name fst snd)
  | .pair erased type fst snd => do
      let type ← type.expandWith unfold
      let fst ← fst.expandWith unfold
      let snd ← snd.expandWith unfold
      pure (.pair erased type fst snd)
  | .split erased scrutinee name motive fstName sndName body => do
      let scrutinee ← scrutinee.expandWith unfold
      let motive ← motive.expandWith unfold
      let body ← body.expandWith unfold
      pure (.split erased scrutinee name motive fstName sndName body)
  | .data name type ctrs => do
      let ctrs ← ctrs.expandWith unfold
      let type ← type.expandWith unfold
      pure (.data name type ctrs)
  | .ctr name type => do
      let type ← type.expandWith unfold
      pure (.ctr name type)
  | .caseOf type value name motive branches => do
      let type ← type.expandWith unfold
      let value ← value.expandWith unfold
      let motive ← motive.expandWith unfold
      let branches ← branches.expandWith unfold
      pure (.caseOf type value name motive branches)
  | .dup name value body => do
      let value ← value.expandWith unfold
      let body ← body.expandWith unfold
      pure (.dup name value body)
  | .box value => do
      let value ← value.expandWith unfold
      pure (.box value)
  | .boxType type => do
      let type ← type.expandWith unfold
      pure (.boxType type)

/-- Replace the references of each entry in order. -/
def Entries.expandWith (unfold : String → Option (Except DefinitionFailure Term)) :
    Entries → Except DefinitionFailure Entries
  | .nil => pure .nil
  | .cons label term rest => do
      let term ← term.expandWith unfold
      let rest ← rest.expandWith unfold
      pure (.cons label term rest)

end

/-- Is the term a lambda whose type cannot be inferred, because it has no domain? -/
def Term.lacksDomain : Term → Bool
  | .lam _ _ dom _ => dom.isHole
  | _ => false

namespace Book

/-- Expand a term below the references in `path`, going through at most `depth` more references in a
row. There has to be a term. -/
def expandUpTo (book : Book) : (depth : Nat) → (path : List String) → Term →
    Except DefinitionFailure Term
  | 0, path, t =>
      if t.isHole then .error (.kernel (.stopped .gap))
      else t.expandWith fun name =>
        (book.find? name).map fun _ => .error (.cycle (path ++ [name]))
  | depth + 1, path, t =>
      if t.isHole then .error (.kernel (.stopped .gap))
      else t.expandWith fun name =>
        (book.find? name).map fun definition =>
          let path' := path ++ [name]
          if path.contains name then .error (.cycle path')
          else do
            let body ← book.expandUpTo depth path' definition.term
            match definition.type? with
            | none => pure body
            | some type =>
                if body.lacksDomain then
                  let type ← book.expandUpTo depth path' type
                  pure (.app false (.lam false definition.name type (.var 0)) body)
                else pure body

/-- Replace the references of a term by their definitions. A path without a cycle has no more
references than the book has definitions. -/
def expand (book : Book) (t : Term) : Except DefinitionFailure Term :=
  book.expandUpTo book.length [] t

end Book

end BoxCalculus
