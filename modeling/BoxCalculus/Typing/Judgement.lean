import BoxCalculus.Reduction.Normalization
import BoxCalculus.Term.Equality
import BoxCalculus.Typing.Error

/-!
# Types

The type of a term is either inferred or compared with a type it should have. Only a lambda without a
domain needs the latter: it takes its domain from the function type it is checked against. Types are
compared by their normal forms, up to the names of binders and erasure marks.

A whole check runs on one meter, so its fuel bounds all of its reductions together.
-/

namespace BoxCalculus

/-- Computations that reduce terms on a meter and may fail. -/
abbrev Checking := StateT Meter (Except Failure)

/-- Fail with a type error. -/
def Checking.fail (e : TypeError) : Checking α :=
  throw (.typing e)

/-- The normal form of a term. A reduction that stopped is a failure. -/
def normal (ar : Arith) (env : Env) (t : Term) : Checking Term := fun m =>
  let (nf, m) := reduce ar env t m
  match m.stopped with
  | some stop => .error (.stopped stop)
  | none => .ok (nf, m)

/-- Is the term the universe once it is reduced? -/
def isUniverse (ar : Arith) (env : Env) (t : Term) : Checking Bool := do
  let actual ← normal ar env t
  let expected ← normal ar env .univ
  pure (actual.equal expected)

/-- How the type of a term is found. -/
inductive Mode where
  /-- The type is inferred. -/
  | infer
  /-- The type is given, and the term has to have it. -/
  | against (type : Term)

/-- Finish in a mode with the inferred type of a term: it is the answer, or it has to be the type
that is given. -/
def Mode.settle (ar : Arith) (env : Env) (mode : Mode) (t actual : Term) (ctx : Context) :
    Checking Term :=
  match mode with
  | infer => pure actual
  | against expected => do
      let actual ← normal ar env actual
      let expected ← normal ar env expected
      if actual.equal expected then pure actual
      else Checking.fail (.mismatch t expected (some actual) ctx)

/-- The declaration that a term reduces to. -/
def declaration (ar : Arith) (env : Env) (t : Term) (ctx : Context) :
    Checking (Term × Entries) := do
  let nf ← normal ar env t
  match nf with
  | .data _ _ ctrs => pure (nf, ctrs)
  | _ => Checking.fail ⟨.notInductive, "", some t, none, some nf, ctx⟩

/-- The first label at which branches and constructors differ. It is empty if there are not as many
of the one as of the other. -/
def mismatchedLabel? (branches ctrs : List String) : Option String :=
  if branches.length ≠ ctrs.length then some ""
  else ((branches.zip ctrs).find? fun (branch, ctr) => branch ≠ ctr).map Prod.fst

/-- The type of the branch for a constructor `value` of type `type`: a function of the constructor's
arguments whose result is the motive at the constructor applied to them. -/
def branchType (ar : Arith) : (type motive value : Term) → Term
  | .pi erased name dom cod, motive, value =>
      .pi erased name dom
        (branchType ar cod (motive.shift ar 1 1) (.app erased (value.shift ar 1 0) (.var 0)))
  | _, motive, value => motive.subst ar value 0

/-- The type that the body of a split has to have: the motive at the pair of the two components. -/
def splitBodyType (ar : Arith) (erased : Bool) (sigma motive : Term) : Term :=
  (motive.shift ar 2 1).subst ar (.pair erased (sigma.shift ar 2 0) (.var 1) (.var 0)) 0

mutual

/-- The type of a term in a context, found in a mode. -/
def Term.judge (ar : Arith) (env : Env) : Term → Context → Mode → Checking Term
  | .hole, _, _ => throw .nothingToInfer
  | .var index, ctx, mode =>
      match ctx.lookup ar index with
      | none => Checking.fail (.about .unboundVariable (.var index) ctx)
      | some binding => mode.settle ar env (.var index) binding.type ctx
  | .univ, ctx, mode => mode.settle ar env .univ .univ ctx
  | .ref name, ctx, _ => Checking.fail ⟨.unresolvedReference, name, none, none, none, ctx⟩
  | .lam erased name dom body, ctx, mode => do
      let t := Term.lam erased name dom body
      if dom.isHole then
        match mode with
        | .infer => Checking.fail (.about .cannotInferLambda t ctx)
        | .against expected =>
            let expected ← normal ar env expected
            match expected with
            | .pi _ _ dom cod => body.judge ar env (ctx.extend name dom) (.against cod)
            | _ => Checking.fail ⟨.cannotInferLambda, "", some t, some expected, none, ctx⟩
      else
        let dom ← normal ar env dom
        let cod ← body.judge ar env (ctx.extend name dom) .infer
        mode.settle ar env t (.pi erased name dom cod) ctx
  | .pi erased name dom cod, ctx, mode => do
      let t := Term.pi erased name dom cod
      if !(← isUniverse ar env (← dom.judge ar env ctx .infer)) then
        Checking.fail (.about .illFormedPi t ctx)
      let inner := ctx.extend name (← normal ar env dom)
      if !(← isUniverse ar env (← cod.judge ar env inner .infer)) then
        Checking.fail (.about .illFormedPi t ctx)
      mode.settle ar env t .univ ctx
  | .app erased fn arg, ctx, mode => do
      let t := Term.app erased fn arg
      let fnType ← normal ar env (← fn.judge ar env ctx .infer)
      match fnType with
      | .pi _ _ dom cod =>
          let _ ← arg.judge ar env ctx (.against dom)
          let argument ← normal ar env arg
          mode.settle ar env t (← normal ar env (cod.subst ar argument 0)) ctx
      | _ => Checking.fail ⟨.nonFunctionApplication, "", some t, none, some fnType, ctx⟩
  | .sigma erased name fst snd, ctx, mode => do
      let t := Term.sigma erased name fst snd
      if !(← isUniverse ar env (← fst.judge ar env ctx .infer)) then
        Checking.fail (.about .illFormedSigma t ctx)
      let inner := ctx.extend name (← normal ar env fst)
      if !(← isUniverse ar env (← snd.judge ar env inner .infer)) then
        Checking.fail (.about .illFormedSigma t ctx)
      mode.settle ar env t .univ ctx
  | .pair erased type fst snd, ctx, mode => do
      let t := Term.pair erased type fst snd
      let nf ← normal ar env type
      match nf with
      | .sigma _ _ fstType sndType =>
          let _ ← fst.judge ar env ctx (.against fstType)
          let component ← normal ar env fst
          let _ ← snd.judge ar env ctx (.against (sndType.subst ar component 0))
          mode.settle ar env t nf ctx
      | _ => Checking.fail ⟨.nonSigmaPair, "", some t, none, some nf, ctx⟩
  | .split erased scrutinee name motive fstName sndName body, ctx, mode => do
      let t := Term.split erased scrutinee name motive fstName sndName body
      let nf ← normal ar env (← scrutinee.judge ar env ctx .infer)
      match nf with
      | .sigma _ _ fstType sndType =>
          let inner := ctx.extend name nf
          if !(← isUniverse ar env (← motive.judge ar env inner .infer)) then
            Checking.fail (.mismatch motive .univ none inner)
          let components := (ctx.extend fstName fstType).extend sndName sndType
          let _ ← body.judge ar env components (.against (splitBodyType ar erased nf motive))
          let value ← normal ar env scrutinee
          mode.settle ar env t (← normal ar env (motive.subst ar value 0)) ctx
      | _ => Checking.fail ⟨.nonSigmaSplit, "", some scrutinee, none, some nf, ctx⟩
  | .data name type ctrs, ctx, mode => do
      mode.settle ar env (.data name type ctrs) (← normal ar env type) ctx
  | .ctr name type, ctx, mode => do
      let t := Term.ctr name type
      let (declared, ctrs) ← declaration ar env type ctx
      match ctrs.find? name with
      | some ctrType =>
          mode.settle ar env t (← normal ar env (ctrType.subst ar declared 0)) ctx
      | none => Checking.fail ⟨.unknownConstructor, name, some t, none, none, ctx⟩
  | .caseOf type value name motive branches, ctx, mode => do
      let t := Term.caseOf type value name motive branches
      let (declared, ctrs) ← declaration ar env type ctx
      match mismatchedLabel? branches.labels ctrs.labels with
      | some label => Checking.fail ⟨.patternMismatch, label, some t, none, none, ctx⟩
      | none =>
          let valueType ← normal ar env (← value.judge ar env ctx .infer)
          if !valueType.spine.1.equal declared then
            Checking.fail (.mismatch value declared (some valueType) ctx)
          let inner := ctx.extend name valueType
          if !(← isUniverse ar env (← motive.judge ar env inner .infer)) then
            Checking.fail (.mismatch motive .univ none inner)
          branches.judge ar env ctrs declared motive ctx
          let scrutinee ← normal ar env value
          mode.settle ar env t (← normal ar env (motive.subst ar scrutinee 0)) ctx
  | .dup name value body, ctx, mode => do
      let t := Term.dup name value body
      let valueType ← normal ar env (← value.judge ar env ctx .infer)
      match valueType with
      | .boxType content =>
          let bodyType ← body.judge ar env (ctx.extend name content) .infer
          let nf ← normal ar env value
          -- A box contributes its content, as it does when the duplication is reduced.
          let unboxed := match nf with
            | .box inner => inner
            | other => other
          mode.settle ar env t (← normal ar env (bodyType.subst ar unboxed 0)) ctx
      | _ => Checking.fail ⟨.unboxedDuplication, "", some value, none, some valueType, ctx⟩
  | .box value, ctx, mode => do
      mode.settle ar env (.box value) (.boxType (← value.judge ar env ctx .infer)) ctx
  | .boxType type, ctx, mode => do
      if !(← isUniverse ar env (← type.judge ar env ctx .infer)) then
        Checking.fail (.mismatch type .univ none ctx)
      mode.settle ar env (.boxType type) .univ ctx

/-- Check each branch of a case analysis against the type that its constructor demands. -/
def Entries.judge (ar : Arith) (env : Env) :
    Entries → (ctrs : Entries) → (declared motive : Term) → Context → Checking Unit
  | .cons _ branch rest, .cons label ctrType ctrs, declared, motive, ctx => do
      let type ← normal ar env (ctrType.subst ar declared 0)
      let _ ← branch.judge ar env ctx (.against (branchType ar type motive (.ctr label declared)))
      rest.judge ar env ctrs declared motive ctx
  | _, _, _, _, _ => pure ()

end

/-- The type of a term in a context. -/
def Term.infer (ar : Arith) (env : Env) (t : Term) (ctx : Context) : Checking Term :=
  t.judge ar env ctx .infer

/-- Check that a term has a type in a context. -/
def Term.check (ar : Arith) (env : Env) (t type : Term) (ctx : Context) : Checking Unit := do
  let _ ← t.judge ar env ctx (.against type)

end BoxCalculus
