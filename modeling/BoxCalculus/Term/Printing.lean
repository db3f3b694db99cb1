import BoxCalculus.Name
import BoxCalculus.Term.References
import BoxCalculus.Term.Variables

/-!
# The written form of terms

Binders keep their names where that is possible. A name that is taken, because it is a keyword, a
reference of the printed term or the name of an enclosing binder, is numbered by the depth of its
binder, and primed until it is free; a binder whose name cannot be written gets a letter. A variable
that no binder of the scope binds is written `#k`.

A scope is the list of the names in scope, the innermost first.
-/

namespace BoxCalculus

/-- The `n`-th made-up name: 1 is `a`, 26 is `z`, 27 is `aa`. -/
def letterName (n : Nat) : String :=
  if n = 0 then "" else letterName ((n - 1) / 26) ++ (Char.ofNat (97 + (n - 1) % 26)).toString
termination_by n
decreasing_by omega

/-- May the name not be given to a new binder? -/
def taken (avoid scope : List String) (name : String) : Bool :=
  keywords.contains name || avoid.contains name || scope.contains name

/-- The first free one among `name` and the names with up to `primes` primes after it. -/
def primedUntilFree (avoid scope : List String) : Nat → String → String
  | 0, name => name
  | primes + 1, name =>
      if taken avoid scope name then primedUntilFree avoid scope primes (name ++ "'") else name

/-- The name under which a binder is written in a scope, when the names in `avoid` may not be
used. As many primes are tried as there are names that can be taken. -/
def freshName (avoid scope : List String) (name : String) : String :=
  let base := if isName name then name else letterName (scope.length + 1)
  if taken avoid scope base then
    primedUntilFree avoid scope (keywords.length + avoid.length + scope.length)
      (base ++ toString scope.length)
  else base

/-- The mark of an erased binder or argument. -/
def erasureMark (erased : Bool) : String :=
  if erased then "-" else ""

/-- A block of entries that are already written. -/
def blockText (entries : List String) : String :=
  if entries.isEmpty then "\x7b\x7d" else "\x7b " ++ "; ".intercalate entries ++ " \x7d"

mutual

/-- The written form of a term in a scope. An application inside a spine stands without parentheses
of its own. -/
def Term.text (avoid : List String) : Term → (scope : List String) → (inSpine : Bool) → String
  | .hole, _, _ => "?"
  | .var index, scope, _ =>
      match if 0 ≤ index then scope[index.toNat]? else none with
      | some name => name
      | none => "#" ++ toString (index - scope.length)
  | .univ, _, _ => "Type"
  | .ref name, _, _ => name
  | .pi erased name dom cod, scope, _ =>
      let name := freshName avoid scope name
      "\x7b" ++ erasureMark erased ++ name ++ " : " ++ dom.text avoid scope false ++ "\x7d " ++
        cod.text avoid (name :: scope) false
  | .lam erased name dom body, scope, _ =>
      let name := freshName avoid scope name
      let dom := if dom.isHole then "" else " : " ++ dom.text avoid scope false
      "[" ++ erasureMark erased ++ name ++ dom ++ "] " ++ body.text avoid (name :: scope) false
  | .app erased fn arg, scope, inSpine =>
      let spine := fn.text avoid scope true ++ " " ++ erasureMark erased ++
        arg.text avoid scope false
      if inSpine then spine else "(" ++ spine ++ ")"
  | .sigma erased name fst snd, scope, _ =>
      let name := freshName avoid scope name
      "<" ++ erasureMark erased ++ name ++ " : " ++ fst.text avoid scope false ++ "> " ++
        snd.text avoid (name :: scope) false
  | .pair erased type fst snd, scope, _ =>
      "pair" ++ erasureMark erased ++ " " ++ type.text avoid scope false ++ " " ++
        fst.text avoid scope false ++ " " ++ snd.text avoid scope false
  | .split erased scrutinee name motive fstName sndName body, scope, _ =>
      let name := freshName avoid scope name
      let fstName := freshName avoid scope fstName
      let sndName := freshName avoid (fstName :: scope) sndName
      "split" ++ erasureMark erased ++ " " ++ scrutinee.text avoid scope false ++ " as " ++ name ++
        " return " ++ motive.text avoid (name :: scope) false ++ " with " ++ fstName ++ " " ++
        sndName ++ " => " ++ body.text avoid (sndName :: fstName :: scope) false
  | .data name type ctrs, scope, _ =>
      let name := freshName avoid scope name
      "data " ++ name ++ " : " ++ type.text avoid scope false ++ " " ++
        blockText (ctrs.texts avoid " : " (name :: scope))
  | .ctr name type, scope, _ => "." ++ name ++ " " ++ type.text avoid scope false
  | .caseOf type value name motive branches, scope, _ =>
      let name := freshName avoid scope name
      "case " ++ value.text avoid scope false ++ " of " ++ type.text avoid scope false ++ " as " ++
        name ++ " return " ++ motive.text avoid (name :: scope) false ++ " " ++
        blockText (branches.texts avoid " => " scope)
  | .dup name value body, scope, _ =>
      let name := freshName avoid scope name
      "dup " ++ name ++ " = " ++ value.text avoid scope false ++ " in " ++
        body.text avoid (name :: scope) false
  | .box value, scope, _ => "box " ++ value.text avoid scope false
  | .boxType type, scope, _ => "Box " ++ type.text avoid scope false

/-- The written forms of entries: label, separator, term. -/
def Entries.texts (avoid : List String) (separator : String) :
    Entries → (scope : List String) → List String
  | .nil, _ => []
  | .cons label term rest, scope =>
      (label ++ separator ++ term.text avoid scope false) :: rest.texts avoid separator scope

end

/-- The written form of a term outside every scope. There is none for a gap, or if a variable is
negative. -/
def Term.print? (t : Term) : Option String :=
  if t.isHole || !t.nonneg then none else some (t.text t.refs [] false)

end BoxCalculus
