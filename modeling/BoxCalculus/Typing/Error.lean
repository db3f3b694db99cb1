import BoxCalculus.Context
import BoxCalculus.Reduction.Meter
import BoxCalculus.Text.Quoted

/-!
# Failures of checking

A type error says what kind it is, which term it is about, what was expected and what was found, and
in which context these terms stand.
-/

namespace BoxCalculus

/-- The kinds of type errors. -/
inductive ErrorKind where
  | typeMismatch
  | nonFunctionApplication
  | illFormedPi
  | illFormedSigma
  | unknownConstructor
  | notInductive
  | patternMismatch
  | nonSigmaSplit
  | nonSigmaPair
  | unboxedDuplication
  | unresolvedReference
  | unboundVariable
  | cannotInferLambda
  | stuckReduction
  deriving DecidableEq, Inhabited

namespace ErrorKind

/-- All kinds in the order of their numbers, which count from one. -/
def all : List ErrorKind :=
  [typeMismatch, nonFunctionApplication, illFormedPi, illFormedSigma, unknownConstructor,
    notInductive, patternMismatch, nonSigmaSplit, nonSigmaPair, unboxedDuplication,
    unresolvedReference, unboundVariable, cannotInferLambda, stuckReduction]

/-- The name of a kind. -/
def text : ErrorKind → String
  | typeMismatch => "type mismatch"
  | nonFunctionApplication => "non-function application"
  | illFormedPi => "forall not a type"
  | illFormedSigma => "sigma not a type"
  | unknownConstructor => "constructor not found"
  | notInductive => "not an inductive type"
  | patternMismatch => "mismatched pattern-match"
  | nonSigmaSplit => "split of a non-sigma value"
  | nonSigmaPair => "pair of a non-sigma type"
  | unboxedDuplication => "unboxed duplication"
  | unresolvedReference => "unresolved reference"
  | unboundVariable => "unbound variable"
  | cannotInferLambda => "cannot infer unannotated lambda"
  | stuckReduction => "stuck reduction"

/-- The name of the kind with a number, or the number itself if there is no such kind. -/
def textOfNumber (number : Int) : String :=
  match if 1 ≤ number then all[(number - 1).toNat]? else none with
  | some kind => kind.text
  | none => "error(" ++ toString number ++ ")"

end ErrorKind

/-- A type error. The terms are terms in the context; `name` is empty if the error is not about a
name. -/
structure TypeError where
  kind : ErrorKind
  name : String
  term? : Option Term
  expected? : Option Term
  actual? : Option Term
  context : Context

namespace TypeError

/-- An error about one term. -/
def about (kind : ErrorKind) (t : Term) (ctx : Context) : TypeError :=
  ⟨kind, "", some t, none, none, ctx⟩

/-- A term that does not have the type it should have. -/
def mismatch (t expected : Term) (actual? : Option Term) (ctx : Context) : TypeError :=
  ⟨.typeMismatch, "", some t, some expected, actual?, ctx⟩

/-- The part of the wording that shows a term, if there is one. -/
def part? (ctx : Context) (before after : String) : Option Term → Option String
  | none => some ""
  | some t => (t.printIn? ctx).map fun shown => before ++ shown ++ after

/-- The wording of a type error. There is none if a term cannot be written. -/
def message? (e : TypeError) : Option String := do
  let subject ← part? e.context " on `" "`" e.term?
  let expected ← part? e.context "\n- expect: " "" e.expected?
  let actual ← part? e.context "\n- actual: " "" e.actual?
  let context ←
    if e.context.length = 0 then some "" else e.context.print?.map ("\n[context]\n" ++ ·)
  let name := if e.name = "" then "" else " " ++ Text.quoted e.name
  return e.kind.text ++ name ++ subject ++ expected ++ actual ++ context

end TypeError

/-- Why normalizing or checking failed. -/
inductive Failure where
  | typing (e : TypeError)
  | stopped (stop : Stop)
  /-- A type was asked for where there is no term. -/
  | nothingToInfer

/-- The wording of a failure. There is none if a term in it is missing or cannot be written. -/
def Failure.message? : Failure → Option String
  | typing e => e.message?
  | stopped stop => stop.message?
  | nothingToInfer => some "infer: unhandled term <nil>"

end BoxCalculus
