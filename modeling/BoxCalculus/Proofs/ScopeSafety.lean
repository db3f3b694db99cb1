import BoxCalculus.Proofs.CheckedConditions
import BoxCalculus.Proofs.FreeVariables
import BoxCalculus.Proofs.Resolution

/-!
# Scope safety of the checker

A term is well-scoped in a context if the context binds its free variables. If the definitions are
closed, the context is well-scoped and so are the term and the type it is checked against, then the
checker stays within the scope (`scope_safety`): the type that it infers is well-scoped, it never
reports an unbound variable, and the terms of any other error are well-scoped in the context that
the error has with it.
-/

namespace BoxCalculus

/-- Below `n` binders, do the variables of the term point to these binders? Nothing binds a negative
variable; `signed` says whether there may be any. -/
def Term.scopedIn (t : Term) (signed : Bool) (n : Nat) : Bool :=
  t.freeIn signed (fun _ => false) n

/-- Is the type of each binding well-scoped in the context of the bindings after it? -/
def scopedBindings (signed : Bool) : List Binding → Bool
  | [] => true
  | binding :: outer => binding.type.scopedIn signed outer.length && scopedBindings signed outer

/-- The error stands in a context that extends `ctx`, is well-scoped, and has the variables of the
terms of the error in its scope. -/
structure TypeError.ScopedOver (e : TypeError) (signed : Bool) (ctx : Context) : Prop where
  outer : ctx.bindings <:+ e.context.bindings
  context : scopedBindings signed e.context.bindings = true
  terms : ∀ t ∈ e.terms, t.scopedIn signed e.context.length = true

section Exact

variable {env : Env} {signed : Bool}
  (closed : ∀ name d, env name = some d → d.scopedIn signed 0 = true)

/-- The condition on the bindings says that they are well-scoped. -/
theorem bindings_iff (bindings : List Binding) :
    (freeIn_condition signed (fun _ => false) closed).bindings bindings ↔
      scopedBindings signed bindings = true := by
  induction bindings with
  | nil => exact iff_of_true trivial rfl
  | cons binding outer ih =>
      rw [scopedBindings, Bool.and_eq_true, ← ih]
      rfl

/-- An error that meets the condition is well-scoped. -/
theorem scopedOver_of_error {ctx : Context} {e : TypeError}
    (error : (freeIn_condition signed (fun _ => false) closed).Error ctx e) :
    e.ScopedOver signed ctx :=
  ⟨error.outer, (bindings_iff closed _).1 error.context, error.terms⟩

end Exact

/-- A term without negative variables is well-scoped also where negative ones are allowed. -/
theorem Term.scopedIn_of_nonneg {t : Term} {n : Nat} (signed : Bool)
    (inScope : t.scopedIn false n = true) : t.scopedIn signed n = true := by
  refine allVars_mono (fun k i here => ?_) inScope
  rcases pointsInto_iff.1 here with ⟨-, none⟩ | inside
  · cases none
  · exact pointsInto_iff.2 (.inr inside)

/-- The variables of a well-scoped term are bound where the checker judges them. -/
theorem Term.allJudged_bound {t : Term} {n : Nat} (inScope : t.scopedIn false n = true) :
    AllJudged Bound n t := by
  intro d u judged
  cases u with
  | var i =>
      have points := pointsInto_iff.1 (allVars_within inScope judged.within)
      rcases points with ⟨-, none⟩ | ⟨nonneg, below | none⟩
      · cases none
      · exact ⟨nonneg, below⟩
      · cases none
  | _ => trivial

/-- Unless a sum overflows, the checker stays within the scope. Over well-scoped definitions, and
for a term that is well-scoped in a well-scoped context, an inferred type is well-scoped, no
variable is reported to be unbound, and the terms of an error are well-scoped in the context of the
error, which extends the given one. The same holds of the errors when the term is checked against a
well-scoped type. The definitions, the context and the type may have negative variables in them if
`signed` is set; the term may not. -/
theorem scope_safety {env : Env} (signed : Bool)
    (closed : ∀ name d, env name = some d → d.scopedIn signed 0 = true) (ctx : Context) (t : Term)
    (context : scopedBindings signed ctx.bindings = true)
    (inScope : t.scopedIn false ctx.length = true) :
    (∀ (fuel : Int) (canceled : Bool),
      OverflowFree (fun ar =>
        ({ arith := ar, env := env, fuel := fuel } : Kernel).inferIn canceled t ctx) →
      let k : Kernel := { env := env, fuel := fuel }
      (∀ T, k.inferIn canceled t ctx = .ok T → T.scopedIn signed ctx.length = true) ∧
      ∀ e, k.inferIn canceled t ctx = .error (.typing e) →
        e.kind ≠ .unboundVariable ∧ e.ScopedOver signed ctx) ∧
    ∀ (m : Meter) (type : Term), type.scopedIn signed ctx.length = true →
      OverflowFree (fun ar => (t.check ar env type ctx).run' m) →
      ∀ e, (t.check .word env type ctx).run' m = .error (.typing e) →
        e.kind ≠ .unboundVariable ∧ e.ScopedOver signed ctx := by
  let C := freeIn_condition signed (fun _ => false) closed
  have context' : C.context ctx := (bindings_iff closed _).2 context
  have holds : C.holds ctx.length t := t.scopedIn_of_nonneg signed inScope
  have bound := Term.allJudged_bound inScope
  constructor
  · intro fuel canceled safe k
    constructor
    · intro T ok
      obtain ⟨m', out⟩ := Checking.ok_of_run' (safe.symm.trans ok)
      exact (C.infer context' holds).result out
    · intro e failed
      have out := Checking.error_of_run' (safe.symm.trans failed)
      exact ⟨(judging .exact env t ctx .infer).bound out bound,
        scopedOver_of_error closed ((C.infer context' holds).error out)⟩
  · intro m type expected safe e failed
    have out := Checking.error_of_run' (safe.symm.trans failed)
    exact ⟨(resolving_check .exact env t type ctx).bound out bound,
      scopedOver_of_error closed ((C.check context' holds expected).error out)⟩

/-- Below `A : Type` and `x : A`, the term `[y : id A] y x` is not accepted, since `y` is no
function, and no more so against the type `{y : A} A`. The error is found below the binder `y`,
where `A` has the index two, and has that binder in its context. -/
theorem scope_safety_under_binder :
    let t : Term := .lam false "y" (.app false (.ref "id") (.var 1)) (.app false (.var 0) (.var 1))
    let type : Term := .pi false "y" (.var 1) (.var 2)
    let ctx : Context := ⟨[⟨"x", .var 0⟩, ⟨"A", .univ⟩]⟩
    let e : TypeError := ⟨.nonFunctionApplication, "", some (.app false (.var 0) (.var 1)), none,
      some (.var 2), ctx.extend "y" (.var 1)⟩
    identityKernel.inferIn false t ctx = .error (.typing e) ∧
      (t.check .word identityKernel.env type ctx).run' (Meter.start 3 false) = .error (.typing e) ∧
      e.kind ≠ .unboundVariable ∧ e.ScopedOver false ctx := by
  intro t type ctx e
  have inferred (ar : Arith) (either : ar = .word ∨ ar = .exact) :
      ({ arith := ar, env := identityKernel.env, fuel := 3 } : Kernel).inferIn false t ctx =
        .error (.typing e) := by
    rcases either with rfl | rfl <;> rfl
  have checked (ar : Arith) (either : ar = .word ∨ ar = .exact) :
      (t.check ar identityKernel.env type ctx).run' (Meter.start 3 false) = .error (.typing e) := by
    rcases either with rfl | rfl <;> rfl
  have closed : ∀ name d, identityKernel.env name = some d → d.scopedIn false 0 = true := by
    intro name d found
    simp only [identityKernel, Option.ite_none_right_eq_some] at found
    obtain ⟨-, found⟩ := found
    cases found
    rfl
  obtain ⟨infer_safe, check_safe⟩ := scope_safety false closed ctx t rfl rfl
  have infer_within := (inferred .word (.inl rfl)).trans (inferred .exact (.inr rfl)).symm
  have check_within := (checked .word (.inl rfl)).trans (checked .exact (.inr rfl)).symm
  have first := (infer_safe 3 false infer_within).2 e (inferred .word (.inl rfl))
  have second := check_safe (Meter.start 3 false) type rfl check_within e (checked .word (.inl rfl))
  exact ⟨inferred .word (.inl rfl), checked .word (.inl rfl), first.1, second.2⟩

end BoxCalculus
