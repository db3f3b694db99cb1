import BoxCalculus.Kernel
import BoxCalculus.Proofs.Confluence
import BoxCalculus.Proofs.Runs

/-!
# Normal forms are unique

Whatever order the rules are applied in, a term that is rewritten until no rule applies has become the
term that the reducer returns (`reduce?_eq_of_steps`).

Indices are machine words. Where a sum of indices leaves their range the rules do not fit together any
more, so the statement is about rewriting and reducing in which this does not happen.
-/

namespace BoxCalculus

open Relation (ReflTransGen)

/-- The computation gives with machine words what it gives with exact sums, as it does if none of its
sums leaves the range of words. -/
def OverflowFree (run : Arith → α) : Prop :=
  run .word = run .exact

/-- A rule is applied somewhere in the term, and none of its sums overflows. -/
abbrev SafeStep (env : Env) : Term → Term → Prop :=
  Inside fun t u => Contracts .word env t u ∧ Contracts .exact env t u

/-- Whether a rule applies does not depend on index arithmetic. -/
theorem contract?_isSome (ar ar' : Arith) (env : Env) (t : Term) :
    (t.contract? ar env).isSome = (t.contract? ar' env).isSome := by
  fun_cases Term.contract? ar env t
  all_goals simp_all [Term.contract?]

/-- Whether a term is normal does not depend on index arithmetic. -/
theorem normal_congr {ar ar' : Arith} {env : Env} {t : Term} (normal : Normal ar env t) :
    Normal ar' env t := by
  induction t using Term.byParts with
  | step t ih =>
      obtain ⟨none, parts⟩ := normal_iff.1 normal
      have none' : t.contract? ar' env = Option.none := by
        rw [← Option.isNone_iff_eq_none, ← Option.isSome_eq_false_iff,
          contract?_isSome ar' ar, none]
        rfl
      exact normal_iff.2 ⟨none', fun part member => ih part member (parts part member)⟩

/-- The reducer returns the term that a run without a bound on its steps gives. -/
theorem Kernel.reduce?_iff {k : Kernel} {t r : Term} : k.reduce? t = some r ↔
    ∃ m, Run k.arith k.env [(true, t)] (Meter.start 0 false) [r] m ∧ m.stopped = none := by
  unfold Kernel.reduce?
  simp only [← reduce_iff]
  generalize reduce k.arith k.env t (Meter.start 0 false) = outcome
  obtain ⟨nf, m⟩ := outcome
  simp [and_comm]

/-- What the reducer returns is a normal form of the term. -/
theorem Kernel.reduce?_steps {k : Kernel} {t r : Term} (returns : k.reduce? t = some r) :
    Steps k.arith k.env t r ∧ Normal k.arith k.env r := by
  obtain ⟨m, run, going⟩ := Kernel.reduce?_iff.1 returns
  exact ⟨by simpa using run.steps, by simpa using run.normal going⟩

/-- A term that has been rewritten until no rule applies, in whatever order, is the one that the
reducer returns. -/
theorem reduce?_eq_of_steps {t u r : Term} (rewrites : ReflTransGen (SafeStep .empty) t u)
    (normal : Normal .word .empty u) (returns : ({} : Kernel).reduce? t = some r)
    (safe : OverflowFree fun ar => ({ arith := ar } : Kernel).reduce? t) : r = u := by
  have steps : Steps .exact .empty t u :=
    ReflTransGen.mono (fun _ _ step => step.mono fun _ _ => And.right) _ _ rewrites
  have returns' : ({ arith := .exact } : Kernel).reduce? t = some r := safe.symm.trans returns
  obtain ⟨reduced, normal'⟩ := Kernel.reduce?_steps returns'
  have rest := steps_normal Env.closed_empty reduced steps (normal_congr normal)
  exact (normal'.steps_eq rest).symm

/-- In `(dup x = box Type in [y : Type] x) Type` the reducer opens the box first. Moving the
duplication outward and applying the function below it gives the same term. -/
theorem reduce?_eq_of_floating :
    ∃ r, ({} : Kernel).reduce? (.app false
      (.dup "x" (.box .univ) (.lam false "y" .univ (.var 1))) .univ) = some r ∧ r = .univ := by
  have floats : SafeStep .empty
      (.app false (.dup "x" (.box .univ) (.lam false "y" .univ (.var 1))) .univ)
      (.dup "x" (.box .univ) (.app false (.lam false "y" .univ (.var 1)) .univ)) :=
    .root _ _ ⟨⟨_, rfl, rfl⟩, ⟨_, rfl, rfl⟩⟩
  have applies : SafeStep .empty
      (.dup "x" (.box .univ) (.app false (.lam false "y" .univ (.var 1)) .univ))
      (.dup "x" (.box .univ) (.var 0)) :=
    .part _ 1 1 _ (.var 0) rfl (.root _ _ ⟨⟨_, rfl, rfl⟩, ⟨_, rfl, rfl⟩⟩)
  have opens : SafeStep .empty (.dup "x" (.box .univ) (.var 0)) .univ :=
    .root _ _ ⟨⟨_, rfl, rfl⟩, ⟨_, rfl, rfl⟩⟩
  have normal : Normal .word .empty .univ := normal_iff.2 ⟨rfl, by simp [Term.parts]⟩
  exact ⟨.univ, rfl,
    reduce?_eq_of_steps (.head floats (.head applies (.single opens))) normal rfl (by rfl)⟩

end BoxCalculus
