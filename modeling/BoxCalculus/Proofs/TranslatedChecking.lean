import BoxCalculus.Proofs.FuelThreshold
import BoxCalculus.Proofs.Translations

/-!
# Checking translated terms

A translation of contexts goes with a translation of terms: below each binder that is added it treats
the variable of the binder as bound, and a variable that is looked up has the translated type. Then the
checker cannot tell a term from its translation. In a translated context it accepts the translation of
a term exactly if it accepts the term, with the translated type, and otherwise fails with the translated
error (`ContextTranslation.judge`).
-/

namespace BoxCalculus

/-- A translation of terms together with one of contexts. The binders of a context that are counted are
those inside of the `outer` outermost ones. -/
structure ContextTranslation (ar : Arith) (env env' : Env) extends Translation ar env env' where
  outer : Nat
  context : Context → Context
  extend (n) (ctx : Context) (name type) : ctx.length = outer + n →
    context (ctx.extend name type) = (context ctx).extend (rename name) (term n type)
  lookup (n) (ctx : Context) (i) : ctx.length = outer + n →
    ((context ctx).lookup ar (index n i)).map Binding.type =
      (ctx.lookup ar i).map fun binding => term n binding.type

namespace ContextTranslation

variable {ar : Arith} {env env' : Env} (T : ContextTranslation ar env env')

/-- The binders of a context that are counted. -/
def depth (ctx : Context) : Nat :=
  ctx.length - T.outer

/-- A type error with its terms and its context translated. -/
def error (e : TypeError) : TypeError where
  kind := e.kind
  name := e.name
  term? := e.term?.map (T.term (T.depth e.context))
  expected? := e.expected?.map (T.term (T.depth e.context))
  actual? := e.actual?.map (T.term (T.depth e.context))
  context := T.context e.context

/-- A failure with its terms translated. -/
def failure : Failure → Failure
  | .typing e => .typing (T.error e)
  | .stopped stop => .stopped stop
  | .nothingToInfer => .nothingToInfer

/-- `Outcome R x y` says that `x` and `y` leave the same meter and results that `R` relates, or that `y`
is the translated failure of `x`. -/
inductive Outcome (R : α → β → Prop) :
    Except Failure (α × Meter) → Except Failure (β × Meter) → Prop where
  | ok {a b m} : R a b → Outcome R (.ok (a, m)) (.ok (b, m))
  | error (e) : Outcome R (.error e) (.error (T.failure e))

/-- `Mirrors R x y` says that `y` does on every meter what `x` does, with translated failures and with
results that `R` relates. -/
def Mirrors (R : α → β → Prop) (x : Checking α) (y : Checking β) : Prop :=
  ∀ m, T.Outcome R (x m) (y m)

namespace Mirrors

variable {T}

/-- Related results mirror each other. -/
theorem pure {R : α → β → Prop} {a : α} {b : β} (related : R a b) :
    T.Mirrors R (Pure.pure a) (Pure.pure b) :=
  fun _ => .ok related

/-- Computations that mirror each other one after the other do so. -/
theorem bind {R : α → β → Prop} {S : γ → δ → Prop} {x : Checking α} {y : Checking β}
    {next : α → Checking γ} {next' : β → Checking δ} (first : T.Mirrors R x y)
    (rest : ∀ a b, R a b → T.Mirrors S (next a) (next' b)) : T.Mirrors S (x >>= next) (y >>= next') := by
  intro m
  have here := first m
  rw [Checking.bind_apply, Checking.bind_apply]
  generalize x m = out, y m = out' at here
  cases here with
  | error e => exact .error e
  | ok related => exact rest _ _ related _

/-- One computation after another, where the result of the first is translated by `f`. -/
theorem andThen {f : α → β} {S : γ → δ → Prop} {x : Checking α} {y : Checking β}
    {next : α → Checking γ} {next' : β → Checking δ} (first : T.Mirrors (fun a b => b = f a) x y)
    (rest : ∀ a, T.Mirrors S (next a) (next' (f a))) : T.Mirrors S (x >>= next) (y >>= next') := by
  refine first.bind fun a b same => ?_
  subst same
  exact rest a

/-- A translated error mirrors the error. -/
theorem fail {R : α → β → Prop} {e e' : TypeError} (same : e' = T.error e) :
    T.Mirrors R (Checking.fail e) (Checking.fail e') := by
  subst same
  exact fun _ => .error (.typing e)

/-- A condition that has to hold before the computation goes on. -/
theorem guard {R : α → β → Prop} {yes : Bool} {e e' : TypeError} {rest : Checking α}
    {rest' : Checking β} (error : e' = T.error e) (next : T.Mirrors R rest rest') :
    T.Mirrors R (if (!yes) = true then Checking.fail e >>= fun _ : Unit => rest else rest)
      (if (!yes) = true then Checking.fail e' >>= fun _ : Unit => rest' else rest') := by
  split
  · exact (fail (R := Eq) error).bind fun _ _ _ => next
  · exact next

/-- Reducing the translation mirrors reducing the term. -/
theorem normal (n : Nat) (t : Term) :
    T.Mirrors (fun a b => b = T.term n a) (normal ar env t) (normal ar env' (T.term n t)) := by
  intro m
  unfold BoxCalculus.normal
  rw [T.reduce]
  generalize reduce ar env t m = out
  obtain ⟨nf, m⟩ := out
  dsimp only [Translation.reduced]
  cases m.stopped with
  | none => exact .ok rfl
  | some stop => exact .error (.stopped stop)

/-- The translation is the universe if the term is. -/
theorem isUniverse (n : Nat) (t : Term) :
    T.Mirrors (fun a b => b = a) (isUniverse ar env t) (isUniverse ar env' (T.term n t)) := by
  refine (normal n t).andThen fun actual => ?_
  -- The universe is its own translation, so it is the same one that both are compared with.
  have univ := normal (T := T) n .univ
  rw [T.univ] at univ
  refine univ.andThen fun expected => ?_
  exact pure (T.equal n actual expected)

end Mirrors

/-- The mode of a check. -/
def mode (n : Nat) : Mode → Mode
  | .infer => .infer
  | .against type => .against (T.term n type)

/-- How the results in a mode are related: a type that is inferred is translated. (A type that has been
given is not asked for again.) -/
def Found (n : Nat) : Mode → Term → Term → Prop
  | .infer, type, type' => type' = T.term n type
  | .against _, _, _ => True

section Context

variable {T} {n : Nat} {ctx : Context} (placed : ctx.length = T.outer + n)
include placed

/-- One more binder is counted in an extended context. -/
theorem length_extend (name : String) (type : Term) :
    (ctx.extend name type).length = T.outer + (n + 1) := by
  rw [← Nat.add_assoc, ← placed]
  rfl

/-- An error is translated in its terms and its context. -/
theorem error_mk (kind : ErrorKind) (name : String) (term? expected? actual? : Option Term) :
    T.error ⟨kind, name, term?, expected?, actual?, ctx⟩ =
      ⟨kind, name, term?.map (T.term n), expected?.map (T.term n), actual?.map (T.term n),
        T.context ctx⟩ := by
  have depth : T.depth ctx = n := by rw [depth, placed, Nat.add_sub_cancel_left]
  rw [error, depth]

/-- The error about what is no type is translated. -/
theorem error_not_type (t : Term) :
    T.error (.mismatch t .univ none ctx) = .mismatch (T.term n t) .univ none (T.context ctx) := by
  have here := error_mk placed .typeMismatch "" (some t) (some .univ) none
  rwa [Option.map_some, Option.map_some, Option.map_none, T.univ] at here

namespace Mirrors

/-- Failing in a translated context. -/
theorem fail_mk {R : α → β → Prop} (kind : ErrorKind) (name : String)
    (term? expected? actual? : Option Term) :
    T.Mirrors R (Checking.fail ⟨kind, name, term?, expected?, actual?, ctx⟩)
      (Checking.fail ⟨kind, name, term?.map (T.term n), expected?.map (T.term n),
        actual?.map (T.term n), T.context ctx⟩) :=
  fail (error_mk placed kind name term? expected? actual?).symm

/-- Settling the translated type mirrors settling the type. -/
theorem settle (mode : Mode) (t actual : Term) :
    T.Mirrors (T.Found n mode) (mode.settle ar env t actual ctx)
      ((T.mode n mode).settle ar env' (T.term n t) (T.term n actual) (T.context ctx)) := by
  cases mode with
  | infer => exact pure rfl
  | against expected =>
      refine (normal n actual).andThen fun actual => (normal n expected).andThen fun expected => ?_
      rw [T.equal]
      split
      · exact pure trivial
      · exact fail_mk placed .typeMismatch "" (some t) (some expected) (some actual)

/-- Settling the universe mirrors settling it. -/
theorem settle_univ (mode : Mode) (t : Term) :
    T.Mirrors (T.Found n mode) (mode.settle ar env t .univ ctx)
      ((T.mode n mode).settle ar env' (T.term n t) .univ (T.context ctx)) := by
  have here := settle placed mode t .univ
  rwa [T.univ] at here

/-- Finishing with the instance of a family of types. -/
theorem settle_subst (mode : Mode) (t family value : Term) :
    T.Mirrors (T.Found n mode)
      (BoxCalculus.normal ar env (family.subst ar value 0) >>= fun type => mode.settle ar env t type ctx)
      (BoxCalculus.normal ar env' ((T.term (n + 1) family).subst ar (T.term n value) 0) >>= fun type =>
        (T.mode n mode).settle ar env' (T.term n t) type (T.context ctx)) := by
  rw [← T.subst]
  exact (normal n _).andThen fun type => settle placed mode t type

/-- The translation is a declaration if the term is. -/
theorem declaration (t : Term) :
    T.Mirrors (fun out out' => out' = (T.term n out.1, out.2.map (T.term (n + 1))))
      (declaration ar env t ctx) (declaration ar env' (T.term n t) (T.context ctx)) := by
  refine (normal n t).andThen fun nf => ?_
  have other : T.Mirrors
      (fun (out out' : Term × Entries) => out' = (T.term n out.1, out.2.map (T.term (n + 1))))
      (Checking.fail ⟨.notInductive, "", some t, none, some nf, ctx⟩)
      (Checking.fail ⟨.notInductive, "", some (T.term n t), none, some (T.term n nf), T.context ctx⟩) :=
    fail_mk placed _ _ (some t) none (some nf)
  cases nf with
  | data name type ctrs =>
      simp only [T.data]
      exact pure (by rw [T.data])
  | _ => simpa using other

end Mirrors

end Context

/-- The type of a branch is translated in its parts. -/
theorem branchType (n : Nat) (type motive value : Term) :
    T.term n (branchType ar type motive value) =
      BoxCalculus.branchType ar (T.term n type) (T.term (n + 1) motive) (T.term n value) := by
  induction type generalizing n motive value with
  | pi erased name dom cod _ cod_ih =>
      have var : T.index (n + 1) 0 = 0 := T.bound _ 0 (by omega)
      simp only [BoxCalculus.branchType, T.pi, cod_ih, T.app, T.shift_one, T.shift_one_one, T.var, var]
  | _ => simp [BoxCalculus.branchType, T.subst]

/-- The type of the body of a split is translated in its parts. -/
theorem splitBodyType (n : Nat) (erased : Bool) (sigma motive : Term) :
    T.term (n + 2) (splitBodyType ar erased sigma motive) =
      BoxCalculus.splitBodyType ar (T.mark erased) (T.term n sigma) (T.term (n + 1) motive) := by
  have fst : T.index (n + 2) 1 = 1 := T.bound _ 1 (by omega)
  have snd : T.index (n + 2) 0 = 0 := T.bound _ 0 (by omega)
  have motive_shift : T.term (n + 3) (motive.shift ar 2 1) = (T.term (n + 1) motive).shift ar 2 1 :=
    T.shift n 2 1 motive
  have sigma_shift : T.term (n + 2) (sigma.shift ar 2 0) = (T.term n sigma).shift ar 2 0 :=
    T.shift n 2 0 sigma
  simp only [BoxCalculus.splitBodyType, T.subst, motive_shift, T.pair, sigma_shift, T.var, fst, snd]

/-- `Judged t` says that the checker does to the translation of `t`, in every translated context and in
every mode, what it does to `t`. -/
def Judged (t : Term) : Prop :=
  ∀ ⦃n : Nat⦄ ⦃ctx : Context⦄, ctx.length = T.outer + n → ∀ mode : Mode,
    T.Mirrors (T.Found n mode) (t.judge ar env ctx mode)
      ((T.term n t).judge ar env' (T.context ctx) (T.mode n mode))

namespace Judged

variable {T}

/-- A translated variable is judged as the variable. -/
theorem var (i : Int) : T.Judged (.var i) := by
  intro n ctx placed mode
  have here := T.lookup n ctx i placed
  rw [T.var, Term.judge, Term.judge, ← T.var]
  generalize (T.context ctx).lookup ar (T.index n i) = found', ctx.lookup ar i = found at here
  cases found with
  | none =>
      obtain rfl : found' = none := by simpa using here
      exact .fail_mk placed _ _ (some (.var i)) none none
  | some binding =>
      obtain ⟨binding', rfl, type⟩ := Option.map_eq_some_iff.1 here
      dsimp only
      rw [type]
      exact .settle placed mode (.var i) binding.type

/-- The universe is judged as itself. -/
theorem univ : T.Judged .univ := by
  intro n ctx placed mode
  have here := Mirrors.settle_univ placed mode .univ
  rw [T.univ] at here ⊢
  exact here

/-- The formation of a type from a type and a family of types. -/
theorem formation {n : Nat} {ctx : Context} (placed : ctx.length = T.outer + n) (kind : ErrorKind)
    (t : Term) {dom cod : Term} (name : String) (mode : Mode) (dom_judged : T.Judged dom)
    (cod_judged : T.Judged cod) :
    T.Mirrors (T.Found n mode)
      (do
        if !(← isUniverse ar env (← dom.judge ar env ctx .infer)) then
          Checking.fail (.about kind t ctx)
        let inner := ctx.extend name (← normal ar env dom)
        if !(← isUniverse ar env (← cod.judge ar env inner .infer)) then
          Checking.fail (.about kind t ctx)
        mode.settle ar env t .univ ctx)
      (do
        if !(← isUniverse ar env' (← (T.term n dom).judge ar env' (T.context ctx) .infer)) then
          Checking.fail (.about kind (T.term n t) (T.context ctx))
        let inner := (T.context ctx).extend (T.rename name) (← normal ar env' (T.term n dom))
        if !(← isUniverse ar env' (← (T.term (n + 1) cod).judge ar env' inner .infer)) then
          Checking.fail (.about kind (T.term n t) (T.context ctx))
        (T.mode n mode).settle ar env' (T.term n t) .univ (T.context ctx)) := by
  have error : TypeError.about kind (T.term n t) (T.context ctx) = T.error (.about kind t ctx) :=
    (error_mk placed kind "" (some t) none none).symm
  refine (dom_judged placed .infer).andThen fun type => ?_
  refine (Mirrors.isUniverse n type).andThen fun yes => .guard error ?_
  refine (Mirrors.normal n dom).andThen fun nf => ?_
  rw [← T.extend n ctx name nf placed]
  refine (cod_judged (length_extend placed name nf) .infer).andThen fun type => ?_
  exact (Mirrors.isUniverse _ type).andThen fun yes => .guard error (.settle_univ placed mode t)

/-- A translated function type is judged as it is if both parts are. -/
theorem pi (erased : Bool) (name : String) {dom cod : Term} (dom_judged : T.Judged dom)
    (cod_judged : T.Judged cod) : T.Judged (.pi erased name dom cod) := by
  intro n ctx placed mode
  rw [T.pi]
  unfold Term.judge
  dsimp only
  rw [← T.pi]
  exact formation placed _ _ name mode dom_judged cod_judged

/-- A translated pair type is judged as it is if both parts are. -/
theorem sigma (erased : Bool) (name : String) {fst snd : Term} (fst_judged : T.Judged fst)
    (snd_judged : T.Judged snd) : T.Judged (.sigma erased name fst snd) := by
  intro n ctx placed mode
  rw [T.sigma]
  unfold Term.judge
  dsimp only
  rw [← T.sigma]
  exact formation placed _ _ name mode fst_judged snd_judged

/-- A translated lambda is judged as it is if the body is. -/
theorem lam (erased : Bool) (name : String) (dom : Term) {body : Term} (body_judged : T.Judged body) :
    T.Judged (.lam erased name dom body) := by
  intro n ctx placed mode
  rw [T.lam]
  unfold Term.judge
  dsimp only
  rw [← T.lam, T.isHole]
  split
  · -- Without a domain the lambda has to be checked against a function type.
    cases mode with
    | infer => exact .fail_mk placed _ _ (some (.lam erased name dom body)) none none
    | against wanted =>
        refine (Mirrors.normal n wanted).andThen fun expected => ?_
        have other := Mirrors.fail_mk (R := T.Found n (.against wanted)) placed .cannotInferLambda ""
          (some (.lam erased name dom body)) (some expected) none
        cases expected with
        | pi erased' name' dom' cod =>
            simp only [T.pi]
            rw [← T.extend n ctx name dom' placed]
            exact body_judged (length_extend placed name dom') (.against cod)
        | _ => simpa using other
  · refine (Mirrors.normal n dom).andThen fun nf => ?_
    rw [← T.extend n ctx name nf placed]
    refine (body_judged (length_extend placed name nf) .infer).andThen fun cod => ?_
    rw [← T.pi]
    exact .settle placed mode _ _

/-- A translated application is judged as it is if both parts are. -/
theorem app (erased : Bool) {fn arg : Term} (fn_judged : T.Judged fn) (arg_judged : T.Judged arg) :
    T.Judged (.app erased fn arg) := by
  intro n ctx placed mode
  rw [T.app]
  unfold Term.judge
  dsimp only
  rw [← T.app]
  refine (fn_judged placed .infer).andThen fun type => ?_
  refine (Mirrors.normal n type).andThen fun fnType => ?_
  have other := Mirrors.fail_mk (R := T.Found n mode) placed .nonFunctionApplication ""
    (some (.app erased fn arg)) none (some fnType)
  cases fnType with
  | pi erased' name dom cod =>
      simp only [T.pi]
      refine (arg_judged placed (.against dom)).bind fun _ _ _ => ?_
      refine (Mirrors.normal n arg).andThen fun argument => ?_
      exact .settle_subst placed mode _ cod argument
  | _ => simpa using other

/-- A translated pair is judged as it is if both components are. -/
theorem pair (erased : Bool) (type : Term) {fst snd : Term} (fst_judged : T.Judged fst)
    (snd_judged : T.Judged snd) : T.Judged (.pair erased type fst snd) := by
  intro n ctx placed mode
  rw [T.pair]
  unfold Term.judge
  dsimp only
  rw [← T.pair]
  refine (Mirrors.normal n type).andThen fun nf => ?_
  have other := Mirrors.fail_mk (R := T.Found n mode) placed .nonSigmaPair ""
    (some (.pair erased type fst snd)) none (some nf)
  cases nf with
  | sigma erased' name fstType sndType =>
      simp only [T.sigma]
      refine (fst_judged placed (.against fstType)).bind fun _ _ _ => ?_
      refine (Mirrors.normal n fst).andThen fun component => ?_
      rw [← T.subst, ← T.sigma]
      refine (snd_judged placed (.against _)).bind fun _ _ _ => ?_
      exact .settle placed mode _ _
  | _ => simpa using other

/-- A translated split is judged as it is if its three parts are. -/
theorem split (erased : Bool) (name fstName sndName : String) {scrutinee motive body : Term}
    (scrutinee_judged : T.Judged scrutinee) (motive_judged : T.Judged motive)
    (body_judged : T.Judged body) :
    T.Judged (.split erased scrutinee name motive fstName sndName body) := by
  intro n ctx placed mode
  rw [T.split]
  unfold Term.judge
  dsimp only
  rw [← T.split]
  refine (scrutinee_judged placed .infer).andThen fun type => ?_
  refine (Mirrors.normal n type).andThen fun nf => ?_
  have other := Mirrors.fail_mk (R := T.Found n mode) placed .nonSigmaSplit ""
    (some scrutinee) none (some nf)
  cases nf with
  | sigma erased' name' fstType sndType =>
      simp only [T.sigma]
      rw [← T.sigma, ← T.extend n ctx name _ placed, ← T.extend n ctx fstName fstType placed,
        ← T.extend (n + 1) _ sndName sndType (length_extend placed _ _), ← T.splitBodyType]
      have inner := length_extend placed name (.sigma erased' name' fstType sndType)
      refine (motive_judged inner .infer).andThen fun kind => ?_
      refine (Mirrors.isUniverse _ kind).andThen fun yes => ?_
      refine .guard (error_not_type inner motive).symm ?_
      have components := length_extend (length_extend placed fstName fstType) sndName sndType
      refine (body_judged components (.against _)).bind fun _ _ _ => ?_
      refine (Mirrors.normal n scrutinee).andThen fun value => ?_
      exact .settle_subst placed mode _ motive value
  | _ => simpa using other

/-- A translated declaration is judged as it is. -/
theorem data (name : String) (type : Term) (ctrs : Entries) : T.Judged (.data name type ctrs) := by
  intro n ctx placed mode
  rw [T.data]
  unfold Term.judge
  rw [← T.data]
  exact (Mirrors.normal n type).andThen fun nf => .settle placed mode _ nf

/-- A translated constructor is judged as it is. -/
theorem ctr (name : String) (type : Term) : T.Judged (.ctr name type) := by
  intro n ctx placed mode
  rw [T.ctr]
  unfold Term.judge
  dsimp only
  rw [← T.ctr]
  refine (Mirrors.declaration placed type).andThen ?_
  rintro ⟨declared, ctrs⟩
  dsimp only
  rw [Entries.find?_map]
  cases ctrs.find? name with
  | none => exact .fail_mk placed _ _ (some (.ctr name type)) none none
  | some ctrType => exact .settle_subst placed mode _ ctrType declared

/-- The branches of a case analysis are checked in order, as each of them is. -/
theorem entries {n : Nat} {ctx : Context} (placed : ctx.length = T.outer + n) (ctrs : Entries)
    (declared motive : Term) : ∀ {branches : Entries},
    (∀ entry ∈ branches.toList, T.Judged entry.2) →
    T.Mirrors (fun _ _ => True) (branches.judge ar env ctrs declared motive ctx)
      ((branches.map (T.term n)).judge ar env' (ctrs.map (T.term (n + 1))) (T.term n declared)
        (T.term (n + 1) motive) (T.context ctx))
  | .nil, _ => .pure trivial
  | .cons label branch rest, each => by
      cases ctrs with
      | nil => exact .pure trivial
      | cons name type ctrs =>
          simp only [Entries.toList, List.forall_mem_cons] at each
          simp only [Entries.map, Entries.judge]
          rw [← T.subst]
          refine (Mirrors.normal n _).andThen fun type => ?_
          rw [← T.ctr, ← T.branchType]
          refine (each.1 placed (.against _)).bind fun _ _ _ => ?_
          exact entries placed ctrs declared motive each.2

/-- A translated case analysis is judged as it is if the scrutinee, the motive and the branches are.
-/
theorem caseOf (type : Term) (name : String) {value motive : Term} {branches : Entries}
    (value_judged : T.Judged value) (motive_judged : T.Judged motive)
    (branches_judged : ∀ entry ∈ branches.toList, T.Judged entry.2) :
    T.Judged (.caseOf type value name motive branches) := by
  intro n ctx placed mode
  rw [T.caseOf]
  unfold Term.judge
  dsimp only
  rw [← T.caseOf]
  refine (Mirrors.declaration placed type).andThen ?_
  rintro ⟨declared, ctrs⟩
  dsimp only
  rw [Entries.labels_map, Entries.labels_map]
  cases mismatchedLabel? branches.labels ctrs.labels with
  | some label =>
      exact .fail_mk placed _ _ (some (.caseOf type value name motive branches)) none none
  | none =>
      dsimp only
      refine (value_judged placed .infer).andThen fun type => ?_
      refine (Mirrors.normal n type).andThen fun valueType => ?_
      rw [T.spine, T.equal, ← T.extend n ctx name valueType placed]
      refine .guard (error_mk placed _ _ (some value) (some declared) (some valueType)).symm ?_
      have inner := length_extend placed name valueType
      refine (motive_judged inner .infer).andThen fun kind => ?_
      refine (Mirrors.isUniverse _ kind).andThen fun yes => ?_
      refine .guard (error_not_type inner motive).symm ?_
      refine (entries placed ctrs declared motive branches_judged).bind fun _ _ _ => ?_
      refine (Mirrors.normal n value).andThen fun scrutinee => ?_
      exact .settle_subst placed mode _ motive scrutinee

/-- A translated duplication is judged as it is if both parts are. -/
theorem dup (name : String) {value body : Term} (value_judged : T.Judged value)
    (body_judged : T.Judged body) : T.Judged (.dup name value body) := by
  intro n ctx placed mode
  rw [T.dup]
  unfold Term.judge
  dsimp only
  rw [← T.dup]
  refine (value_judged placed .infer).andThen fun type => ?_
  refine (Mirrors.normal n type).andThen fun valueType => ?_
  have other := Mirrors.fail_mk (R := T.Found n mode) placed .unboxedDuplication ""
    (some value) none (some valueType)
  cases valueType with
  | boxType content =>
      simp only [T.boxType]
      rw [← T.extend n ctx name content placed]
      refine (body_judged (length_extend placed name content) .infer).andThen fun bodyType => ?_
      refine (Mirrors.normal n value).andThen fun nf => ?_
      -- A value that is no box is put into the type as it is.
      have whole := Mirrors.settle_subst placed mode (.dup name value body) bodyType nf
      cases nf with
      | box content =>
          simp only [T.box]
          exact .settle_subst placed mode _ bodyType content
      | _ => simpa using whole
  | _ => simpa using other

/-- A translated box is judged as it is if the content is. -/
theorem box {value : Term} (value_judged : T.Judged value) : T.Judged (.box value) := by
  intro n ctx placed mode
  rw [T.box]
  unfold Term.judge
  rw [← T.box]
  refine (value_judged placed .infer).andThen fun type => ?_
  rw [← T.boxType]
  exact .settle placed mode _ _

/-- A translated box type is judged as it is if the type of the content is. -/
theorem boxType {type : Term} (type_judged : T.Judged type) : T.Judged (.boxType type) := by
  intro n ctx placed mode
  rw [T.boxType]
  unfold Term.judge
  dsimp only
  rw [← T.boxType]
  refine (type_judged placed .infer).andThen fun kind => ?_
  refine (Mirrors.isUniverse n kind).andThen fun yes => ?_
  exact .guard (error_not_type placed type).symm (.settle_univ placed mode _)

end Judged

/-- The checker does to the translation of a term, in a translated context, what it does to the term. -/
theorem judge (t : Term) : T.Judged t := by
  induction t with
  | hole =>
      intro n ctx placed mode
      rw [T.hole]
      exact fun _ => .error .nothingToInfer
  | var i => exact .var i
  | univ => exact .univ
  | ref name =>
      intro n ctx placed mode
      rw [T.ref]
      exact .fail_mk placed _ _ none none none
  | pi erased name dom cod dom_ih cod_ih => exact .pi erased name dom_ih cod_ih
  | lam erased name dom body _ body_ih => exact .lam erased name dom body_ih
  | app erased fn arg fn_ih arg_ih => exact .app erased fn_ih arg_ih
  | sigma erased name fst snd fst_ih snd_ih => exact .sigma erased name fst_ih snd_ih
  | pair erased type fst snd _ fst_ih snd_ih => exact .pair erased type fst_ih snd_ih
  | split erased scrutinee name motive fstName sndName body scrutinee_ih motive_ih body_ih =>
      exact .split erased name fstName sndName scrutinee_ih motive_ih body_ih
  | data name type ctrs => exact .data name type ctrs
  | ctr name type => exact .ctr name type
  | caseOf type value name motive branches _ value_ih motive_ih branches_ih =>
      exact .caseOf type name value_ih motive_ih branches_ih
  | dup name value body value_ih body_ih => exact .dup name value_ih body_ih
  | box value value_ih => exact .box value_ih
  | boxType type type_ih => exact .boxType type_ih

/-- The outcome of a call, where `f` translates its result. -/
def outcome (f : α → β) : Except Failure α → Except Failure β
  | .ok a => .ok (f a)
  | .error e => .error (T.failure e)

/-- A call that mirrors another has the translated outcome. -/
theorem Mirrors.run' {f : α → β} {x : Checking α} {y : Checking β}
    (mirrors : T.Mirrors (fun a b => b = f a) x y) (m : Meter) :
    y.run' m = T.outcome f (x.run' m) := by
  have here := mirrors m
  simp only [StateT.run', Functor.map]
  generalize x m = out, y m = out' at here
  cases here with
  | ok same =>
      subst same
      rfl
  | error e => rfl

section Kernel

variable (fuel : Int) (canceled : Bool) (t : Term) {n : Nat} {ctx : Context}
  (placed : ctx.length = T.outer + n)
include placed

/-- Inferring the type of a translated term in a translated context. -/
theorem inferIn : (⟨ar, env', fuel⟩ : Kernel).inferIn canceled (T.term n t) (T.context ctx) =
    T.outcome (T.term n) ((⟨ar, env, fuel⟩ : Kernel).inferIn canceled t ctx) :=
  Mirrors.run' T (T.judge t placed .infer) _

/-- Checking a translated term against a translated type. -/
theorem check (type : Term) (m : Meter) :
    ((T.term n t).check ar env' (T.term n type) (T.context ctx)).run' m =
      T.outcome id ((t.check ar env type ctx).run' m) := by
  have judged := T.judge t placed (.against type)
  refine Mirrors.run' T (judged.bind fun _ _ _ => ?_) m
  exact .pure rfl

end Kernel

end ContextTranslation

end BoxCalculus
