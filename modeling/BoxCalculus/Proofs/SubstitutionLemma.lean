import BoxCalculus.Proofs.Conversion
import BoxCalculus.Proofs.UniqueNormalForms

/-!
# Reduction and substitution

A term and a value may be reduced before the value is put into the term, or only afterwards: the normal
form is the same (`reduce?_subst`). Substituting what has been reduced is a way of rewriting the
substituted term (`steps_subst`), and every way of rewriting it leads to its one normal form.
-/

namespace BoxCalculus

open Relation (ReflTransGen)

/-- Steps of a term and steps of the value that is put into it. -/
theorem steps_subst {t t' v v' : Term} (body : Steps .exact .empty t t')
    (value : Steps .exact .empty v v') :
    Steps .exact .empty (t.subst .exact v 0) (t'.subst .exact v' 0) := by
  rw [Term.subst_zero, Term.subst_zero]
  refine steps_inst (fun _ _ σ contracts => contracts.inst σ) body fun i => ?_
  -- The value stands for the innermost variable, and the others only move down.
  cases i with
  | zero => exact value
  | succ i => exact ReflTransGen.refl

/-- Normal forms that are reached from two ends of a rewriting are the same. -/
theorem reduce?_eq_of_steps_between {t u r s : Term} (steps : Steps .exact .empty t u)
    (first : ({ arith := .exact } : Kernel).reduce? t = some r)
    (second : ({ arith := .exact } : Kernel).reduce? u = some s) : r = s := by
  obtain ⟨reduced, normal⟩ := Kernel.reduce?_steps first
  obtain ⟨reduced', normal'⟩ := Kernel.reduce?_steps second
  have rest : Steps .exact .empty r s :=
    steps_normal Env.closed_empty reduced (ReflTransGen.trans steps reduced') normal'
  exact (normal.steps_eq rest).symm

/-- Reducing a term and a value before substituting gives the normal form that reducing afterwards
gives, names included. -/
theorem reduce?_subst {t v t' v' r r' : Term} (body : ({} : Kernel).reduce? t = some t')
    (value : ({} : Kernel).reduce? v = some v')
    (after : ({} : Kernel).reduce? (t.subst .word v 0) = some r)
    (before : ({} : Kernel).reduce? (t'.subst .word v' 0) = some r')
    (safe : OverflowFree fun ar =>
      let k : Kernel := { arith := ar }
      (k.reduce? t, k.reduce? v, k.reduce? (t.subst ar v 0), k.reduce? (t'.subst ar v' 0))) :
    r = r' := by
  obtain ⟨safeBody, safeValue, safeAfter, safeBefore⟩ :
      ({} : Kernel).reduce? t = ({ arith := .exact } : Kernel).reduce? t ∧
      ({} : Kernel).reduce? v = ({ arith := .exact } : Kernel).reduce? v ∧
      ({} : Kernel).reduce? (t.subst .word v 0) =
        ({ arith := .exact } : Kernel).reduce? (t.subst .exact v 0) ∧
      ({} : Kernel).reduce? (t'.subst .word v' 0) =
        ({ arith := .exact } : Kernel).reduce? (t'.subst .exact v' 0) := by
    simpa [OverflowFree] using safe
  have bodySteps := (Kernel.reduce?_steps (safeBody.symm.trans body)).1
  have valueSteps := (Kernel.reduce?_steps (safeValue.symm.trans value)).1
  exact reduce?_eq_of_steps_between (steps_subst bodySteps valueSteps)
    (safeAfter.symm.trans after) (safeBefore.symm.trans before)

/-- Into `dup x = y in x Type` a box is put with a function in it that is still to be reduced. Reduced
first, it is the box of the identity function, and either way the result is `Type`. -/
theorem reduce?_subst_box :
    ∃ r, ({} : Kernel).reduce? ((Term.dup "x" (.var 0) (.app false (.var 0) .univ)).subst .word
        (.box (.app false (.lam false "f" .hole (.var 0)) (.lam false "z" .hole (.var 0)))) 0) =
      some r ∧ r = .univ := by
  let body : Term := .dup "x" (.var 0) (.app false (.var 0) .univ)
  let value : Term :=
    .box (.app false (.lam false "f" .hole (.var 0)) (.lam false "z" .hole (.var 0)))
  let value' : Term := .box (.lam false "z" .hole (.var 0))
  have outcome (ar : Arith) (either : ar = .word ∨ ar = .exact) :
      let k : Kernel := { arith := ar }
      (k.reduce? body, k.reduce? value, k.reduce? (body.subst ar value 0),
        k.reduce? (body.subst ar value' 0)) =
        (some body, some value', some .univ, some .univ) := by
    rcases either with rfl | rfl <;> rfl
  refine ⟨.univ, rfl, @reduce?_subst body value body value' .univ .univ
    (by rfl) (by rfl) (by rfl) (by rfl) ?_⟩
  exact (outcome .word (.inl rfl)).trans (outcome .exact (.inr rfl)).symm

end BoxCalculus
