import BoxCalculus.Proofs.CanonicalForms
import BoxCalculus.Proofs.Checking
import BoxCalculus.Proofs.Invariance
import BoxCalculus.Proofs.UniqueNormalForms

/-!
# Progress

If a type is inferred for a term, then the only case analyses of closed scrutinees that can be left in
its normal form are those in annotations, which are not checked (`progress`). The declarations of the
term have to declare families of types with constructors for them: nothing checks this either, and
without it a term of a declared type need not be built by one of its constructors
(`not_progresses`).
-/

namespace BoxCalculus

open Term (Everywhere)

/-- A term has the type that is inferred for it. -/
theorem Kernel.inhabits_of_infer {fuel : Int} {canceled : Bool} {t T : Term}
    (families : Everywhere Term.DeclaresFamily t.bare)
    (infers : ({ arith := .exact, fuel := fuel } : Kernel).infer canceled t = .ok T) :
    Inhabits Context.empty.scope t T.core := by
  generalize out : t.judge .exact .empty Context.empty .infer (Meter.start fuel canceled) = outcome
  simp only [Kernel.infer, Kernel.inferIn, Term.infer, StateT.run', Functor.map, out] at infers
  cases outcome with
  | error e => cases infers
  | ok found =>
      cases infers
      exact Ensures.inhabits families _ _ _ out

/-- If a type is inferred for a term whose declarations declare families of types, and normalizing the
term comes to an end, then it does not fail, or it fails because of a stuck case analysis in an
annotation. -/
theorem progress {fuel fuel' : Int} {canceled canceled' : Bool} {t T r : Term}
    {failure : Option Failure} (families : Everywhere Term.DeclaresFamily t.bare)
    (infers : ({ fuel := fuel } : Kernel).infer canceled t = .ok T)
    (normalizes : ({ fuel := fuel' } : Kernel).normalize canceled' t = (r, failure))
    (completes : ∀ stop, failure ≠ some (.stopped stop))
    (safe : OverflowFree fun ar => (({ arith := ar, fuel := fuel } : Kernel).infer canceled t,
      ({ arith := ar, fuel := fuel' } : Kernel).normalize canceled' t)) :
    failure = none ∨ ∃ stuck a, failure = some (.typing (.about .stuckReduction stuck Context.empty)) ∧
      Annotates a r ∧ a.firstStuck = some stuck := by
  obtain ⟨safe, safe'⟩ := Prod.ext_iff.1 safe
  have inhabits := Kernel.inhabits_of_infer families (safe.symm.trans infers)
  have normalizes' : ({ arith := .exact, fuel := fuel' } : Kernel).normalize canceled' t =
      (r, failure) := safe'.symm.trans normalizes
  generalize reduced : reduce .exact .empty t (Meter.start fuel' canceled') = result
  obtain ⟨u, m⟩ := result
  have run := reduce_iff.1 reduced
  have steps : Steps .exact .empty t u := by simpa using run.steps
  rcases @Kernel.normalize_cases { arith := .exact, fuel := fuel' } canceled' t u m reduced with
    ⟨stop, -, out⟩ | ⟨-, -, out⟩ | ⟨going, stuck, found, ⟨-, out⟩ | ⟨-, out⟩⟩
  · cases normalizes'.symm.trans out
    exact absurd rfl (completes stop)
  · cases normalizes'.symm.trans out
    exact .inl rfl
  · cases normalizes'.symm.trans out
    exact absurd rfl (completes .gap)
  · have normal : Normal .exact .empty u := by simpa using run.normal going
    obtain ⟨a, annotates, found'⟩ := (inhabits.steps steps).annotates_of_firstStuck normal found
    cases normalizes'.symm.trans out
    exact .inr ⟨stuck, a, rfl, annotates, found'⟩

/-- The declaration `data Bool : Type { true : Bool; false : Bool }`. -/
def boolData : Term :=
  .data "Bool" .univ (.cons "true" (.var 0) (.cons "false" (.var 0) .nil))

/-- The case analysis `case Type of Type as s return Type {}`, for which no type is inferred. -/
def stuckCase : Term :=
  .caseOf .univ .univ "s" .univ .nil

/-- The case analysis `case value of Bool as s return Bool { true => .false; false => .true }`. -/
def negation (value : Term) : Term :=
  .caseOf boolData value "s" boolData
    (.cons "true" (.ctr "false" boolData) (.cons "false" (.ctr "true" boolData) .nil))

/-- The function `[b : Box Bool] [y : stuckCase]` of the negation of `dup x = b in x`. -/
def boxedNegation : Term :=
  .lam false "b" (.boxType boolData) <| .lam false "y" stuckCase <|
    negation (.dup "x" (.var 1) (.var 0))

/-- The normal form of `boxedNegation`. -/
def floatedNegation : Term :=
  .lam false "b" (.boxType boolData) <| .lam false "y" stuckCase <|
    .dup "x" (.var 1) (negation (.var 0))

/-- The only declaration in `boxedNegation` is that of the two truth values. -/
theorem everywhere_declaresFamily_boxedNegation :
    Everywhere Term.DeclaresFamily boxedNegation.bare := by
  have family : boolData.bare.DeclaresFamily := by
    refine ⟨⟨.univ, .refl _, .univ⟩, fun ctr mem => ⟨.var 0, ?_, .result 0 []⟩⟩
    rcases List.mem_pair.1 mem with rfl | rfl <;> exact .refl _
  have only : boxedNegation.bare.everywhere (fun u => u.ordinary || u == boolData.bare) = true := by
    decide
  refine (Term.everywhere_iff_everywhere.1 only).imp fun u either => ?_
  rcases Bool.or_eq_true_iff.1 either with ordinary | eq
  · exact stable_declaresFamily.ordinary ordinary
  · exact eq_of_beq eq ▸ family

/-- The duplication of `b` moves outward around the case analysis, which is left as it stands because
its scrutinee is not closed. What is stuck is the domain of `y`. -/
theorem progress_boxedNegation :
    ({} : Kernel).infer false boxedNegation =
        .ok (.pi false "b" (.boxType boolData) (.pi false "y" stuckCase boolData)) ∧
      ({} : Kernel).normalize false boxedNegation =
        (floatedNegation, some (.typing (.about .stuckReduction stuckCase Context.empty))) ∧
      ∃ a, Annotates a floatedNegation ∧ a.firstStuck = some stuckCase := by
  have outcome (ar : Arith) (either : ar = .word ∨ ar = .exact) :
      (({ arith := ar } : Kernel).infer false boxedNegation,
          ({ arith := ar } : Kernel).normalize false boxedNegation) =
        (.ok (.pi false "b" (.boxType boolData) (.pi false "y" stuckCase boolData)),
          floatedNegation, some (.typing (.about .stuckReduction stuckCase Context.empty))) := by
    rcases either with rfl | rfl <;> rfl
  have infers := congrArg (·.1) (outcome .word (.inl rfl))
  have normalizes := congrArg (·.2) (outcome .word (.inl rfl))
  have safe := (outcome .word (.inl rfl)).trans (outcome .exact (.inr rfl)).symm
  refine ⟨infers, normalizes, ?_⟩
  rcases progress everywhere_declaresFamily_boxedNegation infers normalizes (by nofun) safe with
    none | ⟨stuck, a, eq, annotates, found⟩
  · cases none
  · cases eq
    exact ⟨a, annotates, found⟩

/-- Progress for one term, without any restriction. -/
def Progresses (t : Term) : Prop :=
  t.closed = true → t.refs = [] → ∀ T r failure, ({} : Kernel).infer false t = .ok T →
    ({} : Kernel).normalize false t = (r, failure) →
    ∀ stuck, failure ≠ some (.typing (.about .stuckReduction stuck Context.empty))

/-- A function whose domain is a stuck case analysis: `[x : stuckCase] Type`. -/
def stuckDomain : Term :=
  .lam false "x" stuckCase .univ

/-- The declaration `data D : Type {}`. -/
def emptyData : Term :=
  .data "D" .univ .nil

/-- The case analysis `case value of D as s return Type {}`. -/
def absurdity (value : Term) : Term :=
  .caseOf emptyData value "s" .univ .nil

/-- The declaration of `E` gives it a constructor of the empty type `D`, and `D` is then taken apart:
`case .mk data E : Type { mk : D } of D as s return Type {}`. -/
def foreignConstructor : Term :=
  absurdity (.ctr "mk" (.data "E" .univ (.cons "mk" emptyData .nil)))

/-- What is declared to be of the empty type `D` is taken apart:
`case data X : D {} of D as s return Type {}`. -/
def foreignDeclaration : Term :=
  absurdity (.data "X" emptyData .nil)

/-- Progress fails at a stuck annotation, at a constructor that is not of the declared type and at a
declaration that is not of a type. -/
theorem not_progresses :
    ¬ Progresses stuckDomain ∧ ¬ Progresses foreignConstructor ∧ ¬ Progresses foreignDeclaration :=
  ⟨fun progresses => progresses rfl rfl _ _ _ rfl rfl _ rfl,
    fun progresses => progresses rfl rfl _ _ _ rfl rfl _ rfl,
    fun progresses => progresses rfl rfl _ _ _ rfl rfl _ rfl⟩

end BoxCalculus
