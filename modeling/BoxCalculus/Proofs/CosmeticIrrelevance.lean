import BoxCalculus.Proofs.Cosmetics
import BoxCalculus.Proofs.TranslatedChecking

/-!
# Cosmetics influence nothing

Taking all names of bound variables and all erasure marks out of terms, contexts and definitions is a
translation (`bareTranslation`). Terms of the same shape have the same translation, so what the kernel
makes of the one it makes of the other: outcomes of the same shape, or failures of the same kind about
terms of the same shape (`cosmetics_irrelevant`).
-/

namespace BoxCalculus

/-- The definitions without their cosmetics. -/
def Env.bare (env : Env) : Env :=
  fun name => (env name).map Term.bare

/-- The context without the names of its binders and the cosmetics of their types. -/
def Context.bare (ctx : Context) : Context :=
  ⟨ctx.bindings.map fun binding => ⟨"", binding.type.bare⟩⟩

/-- A bare term has no cosmetics. -/
theorem Term.bare_bare (t : Term) : t.bare.bare = t.bare := by
  induction t with
  | data name type ctrs type_ih ctrs_ih =>
      simp only [strip, type_ih, Entries.strip_eq_map, Entries.map_map]
      exact congrArg (data "" _) (Entries.map_congr ctrs_ih)
  | caseOf type value name motive branches type_ih value_ih motive_ih branches_ih =>
      simp only [strip, type_ih, value_ih, motive_ih, Entries.strip_eq_map, Entries.map_map]
      exact congrArg (caseOf _ _ "" _) (Entries.map_congr branches_ih)
  | _ => simp_all [strip]

/-- Shape does not depend on cosmetics. -/
theorem Term.equal_bare (t u : Term) : t.bare.equal u.bare = t.equal u := by
  rw [Bool.eq_iff_iff, Term.equal_iff_strip, Term.equal_iff_strip]
  show t.bare.bare = u.bare.bare ↔ t.bare = u.bare
  rw [bare_bare, bare_bare]

/-- Taking out all cosmetics is a translation. -/
def bareTranslation (ar : Arith) (env : Env) : ContextTranslation ar env env.bare where
  term _ := Term.bare
  index _ i := i
  mark _ := false
  rename _ := ""
  hole _ := rfl
  var _ _ := rfl
  univ _ := rfl
  ref _ _ := rfl
  pi _ _ _ _ _ := rfl
  lam _ _ _ _ _ := rfl
  app _ _ _ _ := rfl
  sigma _ _ _ _ _ := rfl
  pair _ _ _ _ _ := rfl
  split _ _ _ _ _ _ _ _ := rfl
  data _ _ _ ctrs := by rw [Term.bare, Term.strip, Entries.strip_eq_map]
  ctr _ _ _ := rfl
  caseOf _ _ _ _ _ branches := by rw [Term.bare, Term.strip, Entries.strip_eq_map]
  dup _ _ _ _ := rfl
  box _ _ := rfl
  boxType _ _ := rfl
  bound _ _ _ := rfl
  shift _ delta cutoff t := Term.strip_shift _ t ar delta cutoff
  subst _ t value := Term.strip_subst _ t ar value 0
  unfold _ _ := rfl
  equal _ t u := Term.equal_bare t u
  closed _ t := Term.allVars_strip _ _ t 0
  outer := 0
  context := Context.bare
  extend _ _ _ _ _ := rfl
  lookup _ ctx i _ := by
    unfold Context.lookup Context.bare
    split
    · simp [Function.comp_def]
    · rfl

/-- The terms have the same shape. -/
abbrev Term.Alike (t u : Term) : Prop :=
  t.equal u = true

/-- The contexts have as many binders, with types of the same shape. -/
def Context.Alike (ctx ctx' : Context) : Prop :=
  List.Forall₂ (fun binding binding' => binding.type.Alike binding'.type) ctx.bindings ctx'.bindings

/-- The errors are of the same kind, and about terms of the same shape in contexts of the same shape. -/
structure TypeError.Alike (e e' : TypeError) : Prop where
  kind : e.kind = e'.kind
  name : e.name = e'.name
  term? : Option.Rel Term.Alike e.term? e'.term?
  expected? : Option.Rel Term.Alike e.expected? e'.expected?
  actual? : Option.Rel Term.Alike e.actual? e'.actual?
  context : e.context.Alike e'.context

/-- The failures are the same up to cosmetics. -/
inductive Failure.Alike : Failure → Failure → Prop where
  | typing {e e' : TypeError} : e.Alike e' → Alike (.typing e) (.typing e')
  | stopped (stop) : Alike (.stopped stop) (.stopped stop)
  | nothingToInfer : Alike .nothingToInfer .nothingToInfer

/-- `Agree R x y` says that `x` and `y` both succeed with results that `R` relates, or both fail in the
same way up to cosmetics. -/
inductive Agree (R : α → α → Prop) : Except Failure α → Except Failure α → Prop where
  | ok {a b} : R a b → Agree R (.ok a) (.ok b)
  | error {e e'} : e.Alike e' → Agree R (.error e) (.error e')

/-- Terms have the same shape if they are the same without cosmetics. -/
theorem Term.alike_iff {t u : Term} : t.Alike u ↔ t.bare = u.bare :=
  Term.equal_iff_strip t u

/-- Contexts are alike if they are the same without cosmetics. -/
theorem Context.alike_iff {ctx ctx' : Context} : ctx.Alike ctx' ↔ ctx.bare = ctx'.bare := by
  have types : ctx.Alike ctx' ↔ List.Forall₂ (fun binding binding' : Binding =>
      (⟨"", binding.type.bare⟩ : Binding) = ⟨"", binding'.type.bare⟩) ctx.bindings ctx'.bindings := by
    simp [Context.Alike, Term.alike_iff]
  rw [types, Context.bare, Context.bare, Context.mk.injEq, ← List.forall₂_eq_eq_eq,
    List.forall₂_map_left_iff, List.forall₂_map_right_iff]

/-- Options whose images are the same hold things that `R` relates, if `R` relates all things with the
same image. -/
theorem rel_of_map_eq {R : α → α → Prop} {f : α → β} (related : ∀ {a b}, f a = f b → R a b) :
    ∀ {a? b? : Option α}, a?.map f = b?.map f → Option.Rel R a? b?
  | none, none, _ => .none
  | some _, some _, same => .some (related (Option.some.inj same))

section

variable (ar : Arith) (env : Env)

/-- Failures are alike if they are the same without cosmetics. -/
theorem Failure.alike_of_bare {e e' : Failure}
    (same : (bareTranslation ar env).failure e = (bareTranslation ar env).failure e') : e.Alike e' := by
  cases e <;> cases e' <;> simp [ContextTranslation.failure] at same
  case typing.typing e e' =>
      simp only [ContextTranslation.error, TypeError.mk.injEq] at same
      obtain ⟨kind, name, term?, expected?, actual?, context⟩ := same
      exact .typing ⟨kind, name, rel_of_map_eq Term.alike_iff.2 term?,
        rel_of_map_eq Term.alike_iff.2 expected?, rel_of_map_eq Term.alike_iff.2 actual?,
        Context.alike_iff.2 context⟩
  case stopped.stopped stop stop' =>
      subst same
      exact .stopped stop
  case nothingToInfer.nothingToInfer => exact .nothingToInfer

/-- Outcomes that are the same without cosmetics agree. -/
theorem Agree.of_bare {R : α → α → Prop} {f : α → β} {x y : Except Failure α}
    (same : (bareTranslation ar env).outcome f x = (bareTranslation ar env).outcome f y)
    (results : ∀ a b, f a = f b → R a b) : Agree R x y := by
  cases x <;> cases y <;> simp only [ContextTranslation.outcome, Except.ok.injEq, Except.error.injEq,
    reduceCtorEq] at same
  case ok.ok a b => exact .ok (results a b same)
  case error.error e e' => exact .error (Failure.alike_of_bare ar env same)

/-- Normalizing without cosmetics. -/
theorem normalize_bare (fuel : Int) (canceled : Bool) (t : Term) :
    (⟨ar, env.bare, fuel⟩ : Kernel).normalize canceled t.bare =
      (((⟨ar, env, fuel⟩ : Kernel).normalize canceled t).1.bare,
        ((⟨ar, env, fuel⟩ : Kernel).normalize canceled t).2.map (bareTranslation ar env).failure) := by
  obtain ⟨terms, failures⟩ := (bareTranslation ar env).normalize 0 fuel canceled t
  refine Prod.ext terms ?_
  show ((⟨ar, env.bare, fuel⟩ : Kernel).normalize canceled ((bareTranslation ar env).term 0 t)).2 = _
  generalize ((⟨ar, env, fuel⟩ : Kernel).normalize canceled t).2 = failure,
    ((⟨ar, env.bare, fuel⟩ : Kernel).normalize canceled ((bareTranslation ar env).term 0 t)).2 = failure'
    at failures ⊢
  cases failures with
  | none => rfl
  | some stuck => cases stuck <;> rfl

/-- Inferring a type without cosmetics. -/
theorem inferIn_bare (fuel : Int) (canceled : Bool) (t : Term) (ctx : Context) :
    (⟨ar, env.bare, fuel⟩ : Kernel).inferIn canceled t.bare ctx.bare =
      (bareTranslation ar env).outcome Term.bare
        ((⟨ar, env, fuel⟩ : Kernel).inferIn canceled t ctx) :=
  (bareTranslation ar env).inferIn fuel canceled t (n := ctx.length) (Nat.zero_add _).symm

/-- Checking against a type without cosmetics. -/
theorem check_bare (fuel : Int) (canceled : Bool) (t type : Term) :
    (⟨ar, env.bare, fuel⟩ : Kernel).check canceled t.bare type.bare =
      (bareTranslation ar env).outcome id ((⟨ar, env, fuel⟩ : Kernel).check canceled t type) := by
  have placed : Context.empty.length = (bareTranslation ar env).outer + 0 := rfl
  exact (bareTranslation ar env).check t placed type (Meter.start fuel canceled)

end

/-- Terms of the same shape are normalized to terms of the same shape, with the same failure. -/
theorem Kernel.normalize_alike (k : Kernel) (canceled : Bool) {a b : Term} (same : a.Alike b) :
    (k.normalize canceled a).1.Alike (k.normalize canceled b).1 ∧
      Option.Rel Failure.Alike (k.normalize canceled a).2 (k.normalize canceled b).2 := by
  have left := normalize_bare k.arith k.env k.fuel canceled a
  have right := normalize_bare k.arith k.env k.fuel canceled b
  rw [← Term.alike_iff.1 same, left] at right
  obtain ⟨terms, failures⟩ := Prod.mk.inj right
  exact ⟨Term.alike_iff.2 terms, rel_of_map_eq (Failure.alike_of_bare _ _) failures⟩

/-- The names of bound variables and the erasure marks change nothing. Terms of the same shape are
normalized to terms of the same shape, with the same failure if there is one. In contexts of the same
shape their types are inferred with the same outcome, and so they are checked against types of the same
shape. -/
theorem cosmetics_irrelevant (k : Kernel) (canceled : Bool) {a b A B : Term} {ctx ctx' : Context}
    (terms : a.Alike b) (types : A.Alike B) (contexts : ctx.Alike ctx') :
    ((k.normalize canceled a).1.Alike (k.normalize canceled b).1 ∧
      Option.Rel Failure.Alike (k.normalize canceled a).2 (k.normalize canceled b).2) ∧
    Agree Term.Alike (k.inferIn canceled a ctx) (k.inferIn canceled b ctx') ∧
    Agree (fun _ _ => True) (k.check canceled a A) (k.check canceled b B) := by
  have bare : a.bare = b.bare := Term.alike_iff.1 terms
  refine ⟨k.normalize_alike canceled terms, ?_, ?_⟩
  · have left := inferIn_bare k.arith k.env k.fuel canceled a ctx
    have right := inferIn_bare k.arith k.env k.fuel canceled b ctx'
    rw [← bare, ← Context.alike_iff.1 contexts, left] at right
    exact .of_bare k.arith k.env right fun A B => Term.alike_iff.2
  · have left := check_bare k.arith k.env k.fuel canceled a A
    have right := check_bare k.arith k.env k.fuel canceled b B
    rw [← bare, ← Term.alike_iff.1 types, left] at right
    exact .of_bare k.arith k.env right fun _ _ _ => trivial

/-- The type of `[x : Type] x` below a binder is the one of the erased function `[z : Type] z` below a
binder of another name, up to cosmetics. -/
theorem cosmetics_irrelevant_identity :
    ∃ B, ({} : Kernel).inferIn false (.lam true "z" .univ (.var 0)) ⟨[⟨"w", .univ⟩]⟩ = .ok B ∧
      (Term.pi false "x" .univ .univ).Alike B := by
  have outcome : ({} : Kernel).inferIn false (.lam false "x" .univ (.var 0)) ⟨[⟨"y", .univ⟩]⟩ =
      .ok (.pi false "x" .univ .univ) := by rfl
  obtain ⟨-, inferred, -⟩ := @cosmetics_irrelevant {} false (.lam false "x" .univ (.var 0))
    (.lam true "z" .univ (.var 0)) .univ .univ ⟨[⟨"y", .univ⟩]⟩ ⟨[⟨"w", .univ⟩]⟩
    (by rfl) (by rfl) (.cons (by rfl) .nil)
  rw [outcome] at inferred
  generalize ({} : Kernel).inferIn false (.lam true "z" .univ (.var 0)) ⟨[⟨"w", .univ⟩]⟩ = other
    at inferred ⊢
  cases inferred with
  | ok alike => exact ⟨_, rfl, alike⟩

end BoxCalculus
