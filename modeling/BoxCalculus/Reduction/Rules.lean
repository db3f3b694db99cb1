import BoxCalculus.Term.Variables

/-!
# The reduction rules

A redex is a term that a rule applies to at its root. Functions meet arguments, splits meet pairs,
duplications meet boxes, case analyses meet constructors, and references meet their definitions. A
duplication in the position that such a form looks at moves outward, around the form.
-/

namespace BoxCalculus

/-- What references mean: a name may have a term. -/
abbrev Env := String → Option Term

/-- An environment without definitions. -/
def Env.empty : Env := fun _ => none

/-- The right-hand side of a rule: a term, or a duplication that has moved outward around a term. -/
inductive Contractum where
  | plain (t : Term)
  | under (name : String) (value body : Term)
  deriving DecidableEq

/-- The right-hand side as a term. -/
def Contractum.term : Contractum → Term
  | plain t => t
  | under name value body => .dup name value body

/-- The rule that applies to a term at its root, if there is one. -/
def Term.contract? (ar : Arith) (env : Env) : Term → Option Contractum
  | .ref name => (env name).map .plain
  | .app _ (.lam _ _ _ body) arg => some (.plain (body.subst ar arg 0))
  | .app erased (.dup name value body) arg =>
      some (.under name value (.app erased body (arg.shift ar 1 0)))
  | .split _ (.pair _ _ fst snd) _ _ _ _ body =>
      some (.plain ((body.subst ar (snd.shift ar 1 0) 0).subst ar fst 0))
  | .split erased (.dup name value inner) self motive fstName sndName body =>
      some (.under name value
        (.split erased inner self (motive.shift ar 1 1) fstName sndName (body.shift ar 1 2)))
  | .dup _ (.box value) body => some (.plain (body.subst ar value 0))
  | .dup name (.dup outer value inner) body =>
      some (.under outer value (.dup name inner (body.shift ar 1 1)))
  | .caseOf type value self motive branches =>
      match value.spine with
      | (.ctr label _, args) =>
          (branches.find? label).map fun branch => .plain (branch.apply args)
      | (.dup name boxed inner, []) =>
          some (.under name boxed
            (.caseOf (type.shift ar 1 0) inner self (motive.shift ar 1 1)
              (branches.map fun branch => branch.shift ar 1 0)))
      | _ => none
  | _ => none

end BoxCalculus
