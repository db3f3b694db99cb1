import BoxCalculus.Typing.Judgement

/-!
# The kernel

A kernel fixes the environment and the fuel that reductions and checks run with. Each call has a
meter of its own.
-/

namespace BoxCalculus

/-- What calls of the kernel have in common. -/
structure Kernel where
  arith : Arith := Arith.word
  env : Env := Env.empty
  /-- The bound on the steps of each call. There is none if it is not positive. -/
  fuel : Int := 0

namespace Kernel

/-- The normal form of a term, without a bound on its steps. There is none if a gap is met, or if the
steps do not come to an end. -/
def reduce? (k : Kernel) (t : Term) : Option Term :=
  let (nf, m) := reduce k.arith k.env t (Meter.start 0 false)
  if m.stopped.isSome then none else some nf

/-- Reduce a term within the kernel's fuel. If the reduction stops early the term is partly reduced.
A normal form in which a case analysis of a closed scrutinee is left is reported as stuck. -/
def normalize (k : Kernel) (canceled : Bool) (t : Term) : Term × Option Failure :=
  let (nf, m) := reduce k.arith k.env t (Meter.start k.fuel canceled)
  match m.stopped with
  | some stop => (nf, some (.stopped stop))
  | none =>
      match nf.firstStuck with
      | none => (nf, none)
      | some stuck =>
          if stuck.lacksScrutinee then (nf, some (.stopped .gap))
          else (nf, some (.typing (.about .stuckReduction stuck Context.empty)))

/-- The type of a term in a context. -/
def inferIn (k : Kernel) (canceled : Bool) (t : Term) (ctx : Context) : Except Failure Term :=
  (t.infer k.arith k.env ctx).run' (Meter.start k.fuel canceled)

/-- The type of a closed term. -/
def infer (k : Kernel) (canceled : Bool) (t : Term) : Except Failure Term :=
  k.inferIn canceled t Context.empty

/-- Check that a closed term has a type. -/
def check (k : Kernel) (canceled : Bool) (t type : Term) : Except Failure Unit :=
  (t.check k.arith k.env type Context.empty).run' (Meter.start k.fuel canceled)

end Kernel

end BoxCalculus
