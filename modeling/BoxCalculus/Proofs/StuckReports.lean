import BoxCalculus.Proofs.ScopeSafety

/-!
# What a report of a stuck reduction is about

A normal form in which a case analysis of a closed scrutinee is left is reported as stuck. The report
shows the case analysis as it stands in the normal form, which may be below binders, together with an
empty context.

So the variables of the case analysis are bound where it comes from, and the report is well-scoped
exactly if the case analysis uses none of the binders around it (`stuck_report_scoped`). If it uses one
of them, its context does not bind the variable (`stuck_report_unbound`).
-/

namespace BoxCalculus

namespace Term

variable {t : Term}

/-- A question about the variables of a term is one about each variable that stands in it. -/
theorem allVars_iff_within {p : Nat → Int → Bool} {n : Nat} :
    t.allVars p n = true ↔ ∀ d i, t.Within d (var i) → p (n + d) i = true := by
  constructor
  · exact fun all d i within => allVars_within all within
  · intro all
    induction t using byParts generalizing n with
    | step t ih =>
        by_cases isVar : ∃ i, t = var i
        · obtain ⟨i, rfl⟩ := isVar
          exact all 0 i (.self _)
        · rw [not_exists] at isVar
          rw [allVars_eq_all _ _ isVar, List.all_eq_true]
          refine fun part mem => ih part mem fun d i within => ?_
          rw [Nat.add_assoc]
          exact all (part.1 + d) i (.child mem within)

/-- Each term in a term stands in it below some binders. -/
theorem everywhere_within (t : Term) : Everywhere (fun u => ∃ d, t.Within d u) t := by
  induction t using byParts with
  | step t ih =>
      refine .intro ⟨0, .self t⟩ fun part mem => (ih part mem).imp fun u inside => ?_
      obtain ⟨d, within⟩ := inside
      exact ⟨part.1 + d, .child mem within⟩

/-- What is found to be stuck is a case analysis of a closed scrutinee that stands in the term. -/
theorem within_of_firstStuck {stuck : Term} (found : t.firstStuck = some stuck) :
    ∃ depth type value name motive branches, stuck = caseOf type value name motive branches ∧
      t.Within depth stuck ∧ value.closed = true := by
  obtain ⟨⟨depth, within⟩, closed⟩ := t.everywhere_within.firstStuck found
  cases stuck with
  | caseOf type value name motive branches =>
      exact ⟨depth, type, value, name, motive, branches, rfl, within, closed⟩
  | _ => cases closed

/-- A term that is well-scoped below some binders is so without them if it uses none of them. -/
theorem scopedIn_zero_iff {signed : Bool} {n : Nat} (inScope : t.scopedIn signed n = true) :
    t.scopedIn signed 0 = true ↔ ∀ i < n, t.occurs .exact i = false := by
  simp only [occurs, Bool.not_eq_false', Arith.exact_add]
  constructor
  · intro outside i _
    refine allVars_mono (fun k j here => ?_) outside
    rw [bne_iff_ne]
    rcases pointsInto_iff.1 here with ⟨negative, -⟩ | ⟨-, inside | none⟩
    · omega
    · omega
    · cases none
  · intro unused
    refine allVars_iff_within.2 fun d j within => pointsInto_iff.2 ?_
    rcases pointsInto_iff.1 (allVars_within inScope within) with negative | ⟨nonneg, inside | none⟩
    · exact .inl negative
    · refine .inr ⟨nonneg, .inl ?_⟩
      by_contra outside
      -- The variable points to one of the binders, which is not used.
      have differ := allVars_within (unused (j.toNat - d) (by omega)) within
      have differ' := bne_iff_ne.1 differ
      omega
    · cases none

end Term

/-- A report of a stuck reduction shows a case analysis of a closed scrutinee that stands in the
returned term, below some number of binders. Over well-scoped definitions, for a closed term and unless
a sum overflows, it is well-scoped below as many binders. The context of the report has none, so that
it is well-scoped there exactly if it uses no binder around it. There may be negative variables in the
definitions and the term if `signed` is set. -/
theorem stuck_report_scoped {env : Env} (signed : Bool)
    (closed : ∀ name d, env name = some d → d.scopedIn signed 0 = true) (fuel : Int)
    (canceled : Bool) {t u : Term} {e : TypeError} (inScope : t.scopedIn signed 0 = true)
    (safe : OverflowFree fun ar =>
      ({ arith := ar, env := env, fuel := fuel } : Kernel).normalize canceled t)
    (reported : ({ env := env, fuel := fuel } : Kernel).normalize canceled t =
      (u, some (.typing e))) :
    ∃ depth type value name motive branches,
      let stuck := Term.caseOf type value name motive branches
      e = .about .stuckReduction stuck Context.empty ∧ u.Within depth stuck ∧
        value.closed = true ∧ value ≠ .hole ∧ stuck.scopedIn signed depth = true ∧
        (stuck.scopedIn signed e.context.length = true ↔
          ∀ i < depth, stuck.occurs .exact i = false) := by
  generalize reduced : reduce .exact env t (Meter.start fuel canceled) = out
  obtain ⟨nf, m⟩ := out
  have exactly := safe.symm.trans reported
  obtain ⟨stop, -, stopped⟩ | ⟨-, -, fine⟩ | ⟨-, stuck, found, ⟨-, gap⟩ | ⟨there, out⟩⟩ :=
    (⟨.exact, env, fuel⟩ : Kernel).normalize_cases reduced
  · cases stopped.symm.trans exactly
  · cases fine.symm.trans exactly
  · cases gap.symm.trans exactly
  · cases out.symm.trans exactly
    have result : u.scopedIn signed 0 = true :=
      (freeIn_condition signed (fun _ => false) closed).reduce reduced inScope
    obtain ⟨depth, type, value, name, motive, branches, rfl, within, scrutinee⟩ :=
      Term.within_of_firstStuck found
    have bound : (Term.caseOf type value name motive branches).scopedIn signed depth = true := by
      have here := Term.allVars_within result within
      rwa [Nat.zero_add] at here
    refine ⟨depth, type, value, name, motive, branches, rfl, within, scrutinee, ?_, bound,
      Term.scopedIn_zero_iff bound⟩
    rintro rfl
    cases there

/-- The case analysis `case Type of Type as s return Type { mk => x }`, where `x` is the variable `0`.
-/
def stuckUse : Term :=
  .caseOf .univ .univ "s" .univ (.cons "mk" (.var 0) .nil)

/-- In `[x : Type] id stuckUse` the case analysis is found below the binder of `x`, which it uses. -/
theorem stuck_report_scoped_identity :
    let t : Term := .lam false "x" .univ (.app false (.ref "id") stuckUse)
    let u : Term := .lam false "x" .univ stuckUse
    let e : TypeError := .about .stuckReduction stuckUse Context.empty
    identityKernel.normalize false t = (u, some (.typing e)) ∧
      ∃ depth, u.Within depth stuckUse ∧ stuckUse.scopedIn false depth = true ∧
        (stuckUse.scopedIn false e.context.length = true ↔
          ∀ i < depth, stuckUse.occurs .exact i = false) := by
  intro t u e
  have closed : ∀ name d, identityKernel.env name = some d → d.scopedIn false 0 = true := by
    intro name d found
    simp only [identityKernel, Option.ite_none_right_eq_some] at found
    obtain ⟨-, found⟩ := found
    cases found
    rfl
  have reported : identityKernel.normalize false t = (u, some (.typing e)) := rfl
  obtain ⟨depth, _, _, _, _, _, same, within, -, -, bound, valid⟩ :=
    stuck_report_scoped false closed 3 false (t := t) rfl rfl reported
  rw [← Option.some.inj (congrArg TypeError.term? same)] at within bound valid
  exact ⟨reported, depth, within, bound, valid⟩

/-- In the report for the closed term `[x : Type] stuckUse` the variable `x` is bound by nothing. -/
theorem stuck_report_unbound :
    let t : Term := .lam false "x" .univ stuckUse
    t.scopedIn false 0 = true ∧ t.solid = true ∧ ∃ e : TypeError,
      ({} : Kernel).normalize false t = (t, some (.typing e)) ∧ e.kind = .stuckReduction ∧
        e.term? = some stuckUse ∧ stuckUse.scopedIn true e.context.length = false :=
  ⟨rfl, rfl, _, rfl, rfl, rfl, rfl⟩

end BoxCalculus
