import BoxCalculus.Term.Printing

/-!
# Contexts

A context lists the binders around a term. The type of each is kept as it was when the binder was
added, and is moved into the whole context when it is looked up.
-/

namespace BoxCalculus

/-- A bound name with its type. -/
structure Binding where
  name : String
  type : Term

/-- The binders around a term, the innermost first. The type of each is a term in the context of the
bindings after it. -/
structure Context where
  bindings : List Binding

namespace Context

/-- The context of a closed term. -/
def empty : Context := ⟨[]⟩

instance : Inhabited Context := ⟨empty⟩

/-- The number of binders. -/
def length (ctx : Context) : Nat :=
  ctx.bindings.length

/-- Add an innermost binder. -/
def extend (ctx : Context) (name : String) (type : Term) : Context :=
  ⟨⟨name, type⟩ :: ctx.bindings⟩

/-- Drop the innermost binder, if there is one. -/
def narrow (ctx : Context) : Context :=
  ⟨ctx.bindings.tail⟩

/-- The binding of a variable, with its type moved into the whole context. -/
def lookup (ctx : Context) (ar : Arith) (index : Int) : Option Binding :=
  if 0 ≤ index then
    ctx.bindings[index.toNat]?.map fun binding =>
      ⟨binding.name, binding.type.shift ar (ar.add index 1) 0⟩
  else none

/-- The names of the binders, the outermost first. -/
def names (ctx : Context) : List String :=
  (ctx.bindings.map Binding.name).reverse

/-- The names under which the given binders are written, when `avoid` may not be used. -/
def scopeOf (avoid : List String) : List Binding → List String
  | [] => []
  | binding :: outer =>
      let scope := scopeOf avoid outer
      freshName avoid scope binding.name :: scope

/-- One line `name : type` for each binder, the innermost first. -/
def linesOf : List Binding → List String
  | [] => []
  | binding :: outer =>
      let scope := scopeOf [] outer
      (freshName [] scope binding.name ++ " : " ++ binding.type.text [] scope false) ::
        linesOf outer

/-- One line `name : type` for each binder, the outermost first. There is no such text if a variable
of a type is negative. -/
def print? (ctx : Context) : Option String :=
  if ctx.bindings.all (·.type.nonneg) then
    some ("\n".intercalate (linesOf ctx.bindings).reverse)
  else none

end Context

/-- The written form of a term in a context, where its free variables have the names of their
binders. There is none for a gap, or if a variable is negative. -/
def Term.printIn? (t : Term) (ctx : Context) : Option String :=
  if t.isHole || !t.nonneg then none
  else some (t.text t.refs (Context.scopeOf t.refs ctx.bindings) false)

end BoxCalculus
