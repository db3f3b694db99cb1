import BoxCalculus.Proofs.CheckedReferences
import BoxCalculus.Proofs.Resolution
import BoxCalculus.Proofs.Settled
import BoxCalculus.Proofs.UniqueNormalForms

/-!
# The type of a normal form

The type that is inferred for an admitted term is inferred for its normal form as well, unless the
inference does not come to an end (`type_preservation`). A term is admitted if all that the checker
judges in it is regular and duplications move freely in all that it rewrites to.

Other terms can lose their types (`types_lost`). A duplication of an opaque value is typed by the value,
also in a scrutinee, and a declaration can have constructors of another type; each of these leads to a
normal form of another type. And where a declaration is made of functions of its own values, there are
types without a normal form, which inferring the type of a normal form can come upon.
-/

namespace BoxCalculus

/-- Nothing that a run needs is missing in a solid term. -/
theorem Gapped.not_solid {job : Bool × Term} (gapped : Gapped job) : job.2.solid = false := by
  induction gapped with
  | here => rfl
  | inside needed t job mem _ ih =>
      rw [← Bool.not_eq_true]
      intro solid
      rw [Term.early_append_late] at mem
      obtain ⟨part, inside, rfl⟩ := List.mem_map.1 mem
      rw [(Term.solid_iff.1 solid).2 part inside] at ih
      cases ih

/-- A normal term that is solid is its own normal form. -/
theorem Kernel.reduce?_of_normal {k : Kernel} {t : Term} (normal : Normal k.arith k.env t)
    (solid : t.solid = true) : k.reduce? t = some t := by
  have settled : Settled k.arith k.env (true, t) :=
    ⟨normal, fun gapped => by simp [gapped.not_solid] at solid⟩
  exact Kernel.reduce?_iff.2 ⟨_, Settled.run (List.forall_mem_singleton.2 settled) _, rfl⟩

/-- The empty context is fine. -/
theorem Context.fine_empty : Context.empty.Fine :=
  fun _ mem => by cases mem

/-- A term that is typed has an inferred type, unless the fuel runs out. -/
theorem Kernel.infer_of_typed {t T : Term} (solid : t.solid = true) (typed : Typed [] t.bare T) :
    ({ arith := .exact } : Kernel).infer false t = .error (.stopped .outOfFuel) ∨
      ∃ u, ({ arith := .exact } : Kernel).infer false t = .ok u ∧ Represents u T := by
  have yields := Yields.judge Context.fine_empty (.infer T) solid typed
  rcases yields (Meter.start 0 false) ⟨rfl, rfl⟩ with out | ⟨u, m, out, -, represents⟩
  · left
    simp [Kernel.infer, Kernel.inferIn, Term.infer, StateT.run', out, Functor.map, Except.map]
  · refine .inr ⟨u, ?_, represents⟩
    simp [Kernel.infer, Kernel.inferIn, Term.infer, StateT.run', out, Functor.map, Except.map]

/-- What the reducer returns has the types of the term, if duplications move freely. -/
theorem Kernel.typed_reduce? {t r T : Term} (free : t.bare.Unobstructed)
    (typed : Typed [] t.bare T) (returns : ({ arith := .exact } : Kernel).reduce? t = some r) :
    Typed [] r.bare T := by
  obtain ⟨m, run, going⟩ := Kernel.reduce?_iff.1 returns
  have preserves : Preserves t.bare r.bare := by
    simpa using (run.strip fun _ => false).preserves going (by simpa using free)
  exact preserves.2 [] T typed

/-- A term has the type that is inferred for it, if all that is judged is regular. -/
theorem Kernel.typed_of_infer {t T : Term} (solid : t.solid = true)
    (regular : AllRegular .empty t)
    (infers : ({ arith := .exact } : Kernel).infer false t = .ok T) : Typed [] t.bare T.bare := by
  generalize out : t.judge .exact .empty Context.empty .infer (Meter.start 0 false) = outcome
  simp only [Kernel.infer, Kernel.inferIn, Term.infer, StateT.run', Functor.map, out] at infers
  cases outcome with
  | error e => cases infers
  | ok found =>
      cases infers
      have ensures := Ensures.judge Context.fine_empty .infer solid regular
      exact (ensures _ _ _ out).typed

/-- What keeps the type of a term when it is reduced. -/
structure Admitted (t : Term) : Prop where
  /-- Where the checker judges a constructor or a case analysis, the declaration is proper. Where it
  judges a duplication of a value that is not convertible to a box, the type of the body does not
  depend on what is bound. -/
  regular : AllRegular .empty t
  /-- In no term that it rewrites to is a duplication of a value that is not convertible to a box the
  scrutinee of a split or a case analysis whose motive depends on it. -/
  unobstructed : t.bare.Unobstructed

/-- If a type is inferred for a term that is admitted, then the same type is inferred for its normal
form, unless the inference does not come to an end. Inferred types are in normal form. -/
theorem type_preservation {t r T : Term} (solid : t.solid = true) (admitted : Admitted t)
    (infers : ({} : Kernel).infer false t = .ok T) (returns : ({} : Kernel).reduce? t = some r)
    (safe : OverflowFree fun ar => let k : Kernel := { arith := ar }
      (k.infer false t, k.reduce? t, k.infer false r)) :
    ({} : Kernel).infer false r = .error (.stopped .outOfFuel) ∨
      ∃ T', ({} : Kernel).infer false r = .ok T' ∧ T.equal T' = true ∧
        ({} : Kernel).reduce? T = some T ∧ ({} : Kernel).reduce? T' = some T' := by
  obtain ⟨safe, safe', safe''⟩ := Prod.ext_iff.1 safe |>.imp id Prod.ext_iff.1
  have infers' : ({ arith := .exact } : Kernel).infer false t = .ok T := safe.symm.trans infers
  have returns' : ({ arith := .exact } : Kernel).reduce? t = some r := safe'.symm.trans returns
  have again : ({} : Kernel).infer false r = ({ arith := .exact } : Kernel).infer false r := safe''
  -- The inferred type is one of the term, so the normal form has it and the checker finds it there.
  have typed := Kernel.typed_of_infer solid admitted.regular infers'
  have kept := Kernel.typed_reduce? admitted.unobstructed typed returns'
  obtain ⟨steps, -⟩ := Kernel.reduce?_steps returns'
  obtain ⟨_, inferred, represents⟩ : ∃ u, ({ arith := .exact } : Kernel).infer false t = .ok u ∧
      Represents u T.bare := by
    refine (Kernel.infer_of_typed solid typed).resolve_left fun out => ?_
    cases infers'.symm.trans out
  cases infers'.symm.trans inferred
  rw [again]
  refine (Kernel.infer_of_typed (steps.solid solid) kept).imp id ?_
  rintro ⟨T', inferred', represents'⟩
  exact ⟨T', inferred', represents.equal represents',
    Kernel.reduce?_of_normal (normal_congr represents.normal) represents.solid,
    Kernel.reduce?_of_normal (normal_congr represents'.normal) represents'.solid⟩

/-- What the checker judges in a term stands in it, so it has what the parts of terms inherit. -/
theorem Visits.inherits {P : Term → Prop} {ctx ctx' : Context} {t u : Term}
    (inherits : ∀ {t : Term}, P t → ∀ part ∈ t.parts, P part.2) (visits : Visits ctx t ctx' u)
    (holds : P t) : P u := by
  induction visits with
  | self => exact holds
  | @inside ctx t ctx₁ t₁ _ _ judges _ ih =>
      have part : ∃ k, (k, t₁) ∈ t.parts := by
        cases judges with
        | outer mem => exact ⟨0, Term.mem_parts_iff.2 (.inl mem)⟩
        | pi | lam | sigma | dup | splitMotive => exact ⟨1, .tail _ (.head _)⟩
        | splitBody => exact ⟨2, .tail _ (.tail _ (.head _))⟩
        | caseMotive => exact ⟨1, .tail _ (.tail _ (.head _))⟩
      obtain ⟨k, mem⟩ := part
      exact ih (inherits holds (k, t₁) mem)

/-- A term in which all declarations are proper reduces to a proper declaration. -/
theorem Reduces.proper {D type : Term} {name : String} {ctrs : Entries}
    (declared : D.bare.Everywhere Term.DeclaresProperly)
    (reduces : Reduces D (.data name type ctrs)) : (ctrs.strip fun _ => false).Proper :=
  (stable_proper.steps (reduces.1.strip _) declared).here

/-- If all declarations in the term are proper, only the duplications in it have to be looked at. -/
theorem AllRegular.of_proper {ctx : Context} {t : Term}
    (declared : t.bare.Everywhere Term.DeclaresProperly)
    (dups : ∀ ctx' name value body, Visits ctx t ctx' (.dup name value body) →
      Regular ctx' (.dup name value body)) : AllRegular ctx t := by
  intro ctx' u visits
  have inside : u.bare.Everywhere Term.DeclaresProperly := by
    refine visits.inherits (P := fun u => u.bare.Everywhere Term.DeclaresProperly) ?_ declared
    intro t all part mem
    have stripped := List.mem_map_of_mem (f := fun part => (part.1, part.2.bare)) mem
    exact all.part (Term.parts_strip _ t ▸ stripped)
  cases u with
  | ctr | caseOf => exact fun _ _ _ => Reduces.proper (inside.part (.head _))
  | dup => exact dups _ _ _ _ visits
  | _ => trivial

/-- The type of the variable that a duplication binds does not depend on it. -/
theorem Infers.independent_var {ctx : Context} {name : String} {content B : Term}
    (infers : Infers (ctx.extend name content) (.var 0) B) : Independent B.bare := by
  obtain ⟨m, m', out⟩ := infers
  have found : (ctx.extend name content).lookup .exact 0 =
      some ⟨name, content.shift .exact 1 0⟩ := rfl
  rw [Term.judge, found] at out
  cases out
  refine ⟨content.bare, ?_⟩
  rw [Term.bare, Term.strip_shift, Term.shift_one]
  exact .refl _

/-- The declaration `data U : Type { mk : U }`. -/
def unitData : Term :=
  .data "U" .univ (.cons "mk" (.var 0) .nil)

/-- A term of a type, and a case analysis of a variable whose motive depends on it:
`[b : Box U] [P : {u : U} Type] [p : (P .mk U)] [u : U] pair <q : U> (P u)`
`first, case u of U as s return (P s) { mk => p }`. -/
def besideCase (first : Term) : Term :=
  .lam false "b" (.boxType unitData) <| .lam false "P" (.pi false "u" unitData .univ) <|
    .lam false "p" (.app false (.var 0) (.ctr "mk" unitData)) <| .lam false "u" unitData <|
      .pair false (.sigma false "q" unitData (.app false (.var 3) (.var 1))) first
        (.caseOf unitData (.var 0) "s" (.app false (.var 3) (.var 0)) (.cons "mk" (.var 1) .nil))

/-- The case analysis `case value of U as s return U { mk => .mk U }`. -/
def constantCase (value : Term) : Term :=
  .caseOf unitData value "s" unitData (.cons "mk" (.ctr "mk" unitData) .nil)

/-- The duplication of `b` is the scrutinee of a case analysis whose motive does not depend on it. -/
def mixedCases : Term :=
  besideCase (constantCase (.dup "x" (.var 3) (.var 0)))

/-- The normal form of `mixedCases`, with the duplication around the case analysis. -/
def mixedNormal : Term :=
  besideCase (.dup "x" (.var 3) (constantCase (.var 0)))

/-- The type of `mixedCases`. -/
def mixedType : Term :=
  .pi false "b" (.boxType unitData) <| .pi false "P" (.pi false "u" unitData .univ) <|
    .pi false "p" (.app false (.var 0) (.ctr "mk" unitData)) <| .pi false "u" unitData <|
      .sigma false "q" unitData (.app false (.var 3) (.var 1))

/-- The term declares nothing but `unitData`. -/
def Term.declaresUnit : Term → Bool
  | .data name type ctrs => .data name type ctrs = unitData.bare
  | _ => true

/-- The only declaration is a proper one. -/
theorem Term.DeclaresProperly.of_declaresUnit {t : Term} (unit : t.declaresUnit = true) :
    t.DeclaresProperly := by
  cases t with
  | data =>
      cases of_decide_eq_true unit
      exact List.forall_mem_singleton.2 (.result 0 [])
  | _ => trivial

/-- A duplication has its variable as the body. -/
def Term.dupsVariable : Term → Bool
  | .dup _ _ body => body = .var 0
  | _ => true

/-- The scrutinee is no duplication, or it is that of a case analysis with the motive `unitData`. -/
def Term.constantMotive : Term → Bool
  | .split _ (.dup _ _ _) _ _ _ _ _ => false
  | .caseOf _ (.dup _ _ _) _ motive _ => motive = unitData.bare
  | _ => true

/-- Duplications move freely around case analyses with the motive `unitData`. -/
theorem Term.MovesFreely.of_constantMotive {t : Term} (constant : t.constantMotive = true) :
    t.MovesFreely := by
  have independent : Independent unitData.bare := ⟨unitData.bare, .refl _⟩
  unfold Term.constantMotive at constant
  split at constant
  · cases constant
  · cases of_decide_eq_true constant
    exact .inr independent
  · rename_i noSplit noCase
    unfold Term.MovesFreely
    split
    · exact (noSplit _ _ _ _ _ _ _ _ _ rfl).elim
    · exact (noCase _ _ _ _ _ _ _ rfl).elim
    · trivial

/-- All declarations in `mixedCases` are `unitData`, the one duplication has its variable as the body,
and the term rewrites to `mixedNormal` only. -/
theorem mixedCases_admitted : Admitted mixedCases where
  regular := by
    have unit : mixedCases.bare.everywhere Term.declaresUnit = true := by decide +kernel
    have declared : mixedCases.bare.Everywhere Term.DeclaresProperly :=
      (Term.everywhere_iff_everywhere.1 unit).imp fun _ => .of_declaresUnit
    have dups : mixedCases.everywhere Term.dupsVariable = true := by decide +kernel
    refine .of_proper declared fun ctx name value body visits => ?_
    have everywhere := visits.inherits (fun all part mem => all.part mem)
      (Term.everywhere_iff_everywhere.1 dups)
    cases of_decide_eq_true everywhere.here
    exact .inr fun _ _ _ infers => infers.independent_var
  unobstructed := by
    intro u steps
    have mem : u ∈ [mixedCases.bare, mixedNormal.bare] :=
      mem_of_steps (n := 10) (by decide +kernel) (.head _) steps
    have constant : ∀ t ∈ [mixedCases.bare, mixedNormal.bare],
        t.everywhere Term.constantMotive = true := by decide +kernel
    exact (Term.everywhere_iff_everywhere.1 (constant u mem)).imp fun _ => .of_constantMotive

/-- The duplication of a variable moves outward around a case analysis, next to another one whose motive
depends on its scrutinee, and the type stays. -/
theorem type_preservation_mixedCases :
    ({} : Kernel).infer false mixedCases = .ok mixedType ∧
      ({} : Kernel).reduce? mixedCases = some mixedNormal ∧
      (({} : Kernel).infer false mixedNormal = .error (.stopped .outOfFuel) ∨
        ∃ T', ({} : Kernel).infer false mixedNormal = .ok T' ∧ mixedType.equal T' = true ∧
          ({} : Kernel).reduce? mixedType = some mixedType ∧
          ({} : Kernel).reduce? T' = some T') := by
  have outcome (ar : Arith) (either : ar = .word ∨ ar = .exact) :
      (({ arith := ar } : Kernel).infer false mixedCases,
          ({ arith := ar } : Kernel).reduce? mixedCases,
          ({ arith := ar } : Kernel).infer false mixedNormal) =
        (.ok mixedType, some mixedNormal, .ok mixedType) := by
    rcases either with rfl | rfl <;> rfl
  have infers := congrArg (·.1) (outcome .word (.inl rfl))
  have returns := congrArg (·.2.1) (outcome .word (.inl rfl))
  have safe := (outcome .word (.inl rfl)).trans (outcome .exact (.inr rfl)).symm
  exact ⟨infers, returns, type_preservation (by rfl) mixedCases_admitted infers returns safe⟩

/-- Type preservation for one term, without any restriction. -/
def PreservesType (t : Term) : Prop :=
  ∀ T r N, ({} : Kernel).infer false t = .ok T → ({} : Kernel).reduce? t = some r →
    ({} : Kernel).reduce? T = some N →
    ∃ T' N', ({} : Kernel).infer false r = .ok T' ∧ ({} : Kernel).reduce? T' = some N' ∧
      N.equal N' = true

/-- Types are not preserved if another type is inferred for the normal form. -/
theorem not_preservesType {t T r N T' N' : Term} (infers : ({} : Kernel).infer false t = .ok T)
    (returns : ({} : Kernel).reduce? t = some r) (normal : ({} : Kernel).reduce? T = some N)
    (infers' : ({} : Kernel).infer false r = .ok T') (normal' : ({} : Kernel).reduce? T' = some N')
    (differ : N.equal N' = false) : ¬ PreservesType t := by
  intro preserves
  obtain ⟨U, M, inferred, reduced, equal⟩ := preserves T r N infers returns normal
  cases infers'.symm.trans inferred
  cases normal'.symm.trans reduced
  rw [differ] at equal
  cases equal

/-- A duplication of a variable whose body has a type that depends on what it binds:
`[P : {x : Type} Type] [f : {x : Type} (P x)] ([b : Box Type] dup x = b in (f x) box Type)`. -/
def opaqueDup : Term :=
  .lam false "P" (.pi false "x" .univ .univ) <|
    .lam false "f" (.pi false "x" .univ (.app false (.var 1) (.var 0))) <|
      .app false
        (.lam false "b" (.boxType .univ) (.dup "x" (.var 0) (.app false (.var 2) (.var 0))))
        (.box .univ)

/-- Another type is inferred for the normal form of `opaqueDup`. -/
theorem opaqueDup_not_preserved : ¬ PreservesType opaqueDup :=
  not_preservesType rfl rfl rfl rfl rfl rfl

/-- A case analysis whose motive depends on a duplication of a variable, which moves outward around it:
`[b : Box Type] [P : {u : U} Type] [p : (P .mk U)]`
`case dup x = b in .mk U of U as s return (P s) { mk => p }`. -/
def movedScrutinee : Term :=
  .lam false "b" (.boxType .univ) <| .lam false "P" (.pi false "u" unitData .univ) <|
    .lam false "p" (.app false (.var 0) (.ctr "mk" unitData)) <|
      .caseOf unitData (.dup "x" (.var 2) (.ctr "mk" unitData)) "s" (.app false (.var 2) (.var 0))
        (.cons "mk" (.var 0) .nil)

/-- Another type is inferred for the normal form of `movedScrutinee`. -/
theorem movedScrutinee_not_preserved : ¬ PreservesType movedScrutinee :=
  not_preservesType rfl rfl rfl rfl rfl rfl

section Inference

variable {k : Kernel} {ctx : Context} {m m' : Meter} {T : Term} {erased : Bool} {name : String}

/-- The type of a lambda is inferred by that of its body, below the normal form of its domain. -/
theorem Kernel.judge_lam {dom body nf : Term} (endless : m.Endless) (there : dom.isHole = false)
    (reduced : k.reduce? dom = some nf)
    (ok : (Term.lam erased name dom body).judge k.arith k.env ctx .infer m = .ok (T, m')) :
    ∃ cod m₁ m₂, m₁.Endless ∧
      body.judge k.arith k.env (ctx.extend name nf) .infer m₁ = .ok (cod, m₂) := by
  unfold Term.judge at ok
  dsimp only at ok
  rw [there, if_neg Bool.false_ne_true] at ok
  obtain ⟨nf', m₁, normal, ok⟩ := Checking.bind_ok ok
  obtain ⟨cod, m₂, inner, -⟩ := Checking.bind_ok ok
  cases reduced.symm.trans (Kernel.reduce?_of_endless endless normal)
  exact ⟨cod, m₁, m₂, (Steady.normal ..).endless endless normal, inner⟩

/-- The type of an application is the normal form of the codomain with the argument put in. -/
theorem Kernel.judge_app {fn arg : Term} (endless : m.Endless)
    (ok : (Term.app erased fn arg).judge k.arith k.env ctx .infer m = .ok (T, m')) :
    ∃ F m₁ mark x dom cod argument, fn.judge k.arith k.env ctx .infer m = .ok (F, m₁) ∧
      k.reduce? F = some (.pi mark x dom cod) ∧ k.reduce? arg = some argument ∧
      k.reduce? (cod.subst k.arith argument 0) = some T := by
  unfold Term.judge at ok
  dsimp only at ok
  obtain ⟨F, m₁, fn_ok, ok⟩ := Checking.bind_ok ok
  obtain ⟨nf, m₂, form, ok⟩ := Checking.bind_ok ok
  have endless₁ := (Steady.judge ..).endless endless fn_ok
  have endless₂ := (Steady.normal ..).endless endless₁ form
  split at ok
  · rename_i mark x dom cod
    obtain ⟨_, m₃, arg_ok, ok⟩ := Checking.bind_ok ok
    obtain ⟨argument, m₄, value, ok⟩ := Checking.bind_ok ok
    obtain ⟨result, m₅, closed, ok⟩ := Checking.bind_ok ok
    have endless₃ := (Steady.judge ..).endless endless₂ arg_ok
    have endless₄ := (Steady.normal ..).endless endless₃ value
    cases ok
    exact ⟨F, m₁, mark, x, dom, cod, argument, fn_ok, Kernel.reduce?_of_endless endless₁ form,
      Kernel.reduce?_of_endless endless₃ value, Kernel.reduce?_of_endless endless₄ closed⟩
  · cases ok

end Inference

/-- The declaration `data D : Type { mk : {x : {y : Type} Type} D }`. -/
def arrowData : Term :=
  .data "D" .univ (.cons "mk" (.pi false "x" (.pi false "y" .univ .univ) (.var 1)) .nil)

/-- The declaration of `E` gives it a constructor that makes an `arrowData` of a type. The case analysis
takes the type for a function:
`case (.mk data E : Type { mk : {x : Type} D } Type) of D as s return {y : Type} Type`
`{ mk => [x : {y : Type} Type] x }`. -/
def strayConstructor : Term :=
  .caseOf arrowData
    (.app false (.ctr "mk" (.data "E" .univ (.cons "mk" (.pi false "x" .univ arrowData) .nil))) .univ)
    "s" (.pi false "y" .univ .univ)
    (.cons "mk" (.lam false "x" (.pi false "y" .univ .univ) (.var 0)) .nil)

/-- Another type is inferred for the normal form of `strayConstructor`. -/
theorem strayConstructor_not_preserved : ¬ PreservesType strayConstructor :=
  not_preservesType rfl rfl rfl rfl rfl rfl

/-- The declaration `data D : Type { mk : {f : {d : D} Type} D }`, whose values are functions of values. -/
def selfData : Term :=
  .data "D" .univ (.cons "mk" (.pi false "f" (.pi false "d" (.var 0) .univ) (.var 1)) .nil)

/-- The function in a value of `selfData`, applied to the value:
`case value of D as s return Type { mk => [f : {d : D} Type] (f value) }`. -/
def selfApplication (value : Term) : Term :=
  .caseOf selfData value "s" .univ
    (.cons "mk" (.lam false "f" (.pi false "d" selfData .univ)
      (.app false (.var 0) (value.shift .word 1 0))) .nil)

/-- The value `.mk [d : D] selfApplication d`, whose application to itself has no normal form. -/
def selfApplier : Term :=
  .app false (.ctr "mk" selfData) (.lam false "d" selfData (selfApplication (.var 0)))

/-- The functions `[f : {d : D} C d] [g : {d : D} {c : C d} Type]` of a term, where `C d` is the type
`selfApplication d`. -/
def belowFamily (t : Term) : Term :=
  .lam false "f" (.pi false "d" selfData (selfApplication (.var 0))) <|
    .lam false "g" (.pi false "d" selfData (.pi false "c" (selfApplication (.var 0)) .univ)) t

/-- The term `([d : D] (g d (f d)) selfApplier)` below `f` and `g`. -/
def endlessType : Term :=
  belowFamily (.app false
    (.lam false "d" selfData (.app false (.app false (.var 1) (.var 0)) (.app false (.var 2) (.var 0))))
    selfApplier)

/-- The normal form of `endlessType`. -/
def endlessNormal : Term :=
  belowFamily (.app false (.app false (.var 0) selfApplier) (.app false (.var 1) selfApplier))

/-- The domain of the type of `g selfApplier` has no normal form, and the checker looks for one. -/
theorem infer_endlessNormal (T : Term) : ({} : Kernel).infer false endlessNormal ≠ .ok T := by
  intro inferred
  obtain ⟨m, ok⟩ := Checking.ok_of_run' inferred
  obtain ⟨_, _, _, endless, ok⟩ := Kernel.judge_lam (Meter.endless_start (Int.le_refl 0)) rfl rfl ok
  obtain ⟨_, _, _, endless, ok⟩ := Kernel.judge_lam endless rfl rfl ok
  -- To apply `g selfApplier`, its type has to be reduced.
  obtain ⟨_, _, _, _, _, _, _, ok, -⟩ := Kernel.judge_app endless ok
  obtain ⟨_, _, _, _, _, _, _, ok, form, value, result⟩ := Kernel.judge_app endless ok
  cases ok
  cases form
  cases value
  have none : ({} : Kernel).reduce? (.pi false "c" (selfApplication selfApplier) .univ) = none :=
    Kernel.reduce?_eq_none (n := 3) (by decide) rfl rfl
  cases none.symm.trans result

/-- No type is inferred for the normal form of `endlessType`. -/
theorem endlessType_not_preserved : ¬ PreservesType endlessType := by
  intro preserves
  have reduced : ({} : Kernel).reduce? endlessType = some endlessNormal := rfl
  obtain ⟨T', _, inferred, -⟩ := preserves _ _ _ rfl reduced rfl
  exact infer_endlessNormal T' inferred

/-- The term is closed and nothing is missing in it, but it does not keep its type. -/
def LosesType (t : Term) : Prop :=
  t.closed = true ∧ t.solid = true ∧ ¬ PreservesType t

/-- A type is lost at a duplication of an opaque value, if the type of its body depends on what it binds
or if it moves outward around a case analysis whose motive depends on it, at a constructor that is not of
the declared type, and where inferring the type of the normal form does not come to an end. -/
theorem types_lost : LosesType opaqueDup ∧ LosesType movedScrutinee ∧ LosesType strayConstructor ∧
    LosesType endlessType :=
  ⟨⟨by decide, by decide, opaqueDup_not_preserved⟩,
    ⟨by decide, by decide, movedScrutinee_not_preserved⟩,
    ⟨by decide, by decide, strayConstructor_not_preserved⟩,
    ⟨by decide, by decide, endlessType_not_preserved⟩⟩

end BoxCalculus
