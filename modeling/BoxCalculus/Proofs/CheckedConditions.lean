import BoxCalculus.Proofs.Conditions
import BoxCalculus.Proofs.Soundness

/-!
# Conditions that the checker keeps

If a condition holds of a term, of the types in its context and of the type it is checked against,
then it holds of every type that the checker infers, and of every term in the errors that it reports
(`Condition.infer`, `Condition.check`). An error stands in a context of its own, which extends the
one that the check was started in. And the checker does the same in the two environments that the
condition compares.
-/

namespace BoxCalculus

/-- The terms of a type error. -/
def TypeError.terms (e : TypeError) : List Term :=
  e.term?.toList ++ e.expected?.toList ++ e.actual?.toList

namespace Condition

variable {ar : Arith} {env env' : Env} (C : Condition ar env env')

/-- The condition holds of the type of each binding, in the context of the bindings after it. -/
def bindings : List Binding → Prop
  | [] => True
  | binding :: outer => C.holds outer.length binding.type ∧ bindings outer

/-- The condition holds of the types in the context. -/
def context (ctx : Context) : Prop :=
  C.bindings ctx.bindings

/-- The condition holds of the terms of the error in the error's own context, which extends `ctx`.
-/
structure Error (ctx : Context) (e : TypeError) : Prop where
  outer : ctx.bindings <:+ e.context.bindings
  context : C.context e.context
  terms : ∀ t ∈ e.terms, C.holds e.context.length t

/-- `C.Meets ctx P x y` says that `y` is the same computation as `x`, that `P` holds of its results,
and that its errors over the context `ctx` meet the condition. -/
structure Meets (ctx : Context) (P : α → Prop) (x y : Checking α) : Prop where
  same : y = x
  result : ∀ {m a m'}, x m = .ok (a, m') → P a
  error : ∀ {m e}, x m = .error (.typing e) → C.Error ctx e

variable {C} {ctx : Context} {t : Term}

/-- The entry with the number `i` is in order in the context of the entries after it. -/
theorem bindings_getElem? : ∀ {bindings : List Binding} {i : Nat} {entry : Binding},
    C.bindings bindings → bindings[i]? = some entry →
    ∃ n, bindings.length = n + (i + 1) ∧ C.holds n entry.type
  | binding :: outer, 0, entry, holds, found => by
      obtain rfl : binding = entry := by simpa using found
      exact ⟨outer.length, rfl, holds.1⟩
  | binding :: outer, i + 1, entry, holds, found => by
      obtain ⟨n, length, type⟩ := bindings_getElem? holds.2 (by simpa using found)
      exact ⟨n, by rw [List.length_cons, length]; omega, type⟩

/-- The condition holds of the type that a variable is looked up with. -/
theorem lookup {i : Int} {binding : Binding} (context : C.context ctx)
    (found : ctx.lookup ar i = some binding) : C.holds ctx.length binding.type := by
  unfold Context.lookup at found
  split at found
  · rename_i nonneg
    obtain ⟨entry, here, rfl⟩ := Option.map_eq_some_iff.1 found
    obtain ⟨i, rfl⟩ := Int.eq_ofNat_of_zero_le nonneg
    obtain ⟨n, length, type⟩ := bindings_getElem? context here
    rw [show ctx.length = n + (i + 1) from length]
    exact C.move n i type
  · cases found

/-- An error under a binder is one around it. -/
theorem Error.around {e : TypeError} {name : String} {type : Term}
    (inner : C.Error (ctx.extend name type) e) : C.Error ctx e :=
  ⟨(List.suffix_cons _ _).trans inner.outer, inner.context, inner.terms⟩

/-- An error in the context at hand. -/
theorem Error.here {e : TypeError} (context : C.context ctx) (own : e.context = ctx)
    (terms : ∀ t ∈ e.terms, C.holds ctx.length t) : C.Error ctx e := by
  subst own
  exact ⟨List.suffix_rfl, context, terms⟩

namespace Meets

/-- A result with the property meets the condition. -/
theorem pure {P : α → Prop} {a : α} (holds : P a) : C.Meets ctx P (Pure.pure a) (Pure.pure a) where
  same := rfl
  result := by
    intro m b m' ok
    cases ok
    exact holds
  error := by
    intro m e failed
    cases failed

/-- An error that meets the condition may be reported. -/
theorem fail {P : α → Prop} {e : TypeError} (here : C.Error ctx e) :
    C.Meets ctx P (Checking.fail e) (Checking.fail e) where
  same := rfl
  result := by
    intro m b m' ok
    cases ok
  error := by
    intro m e failed
    cases failed
    exact here

/-- Computations one after the other meet the condition if each does. -/
theorem bind {P : α → Prop} {Q : β → Prop} {x y : Checking α} {f g : α → Checking β}
    (first : C.Meets ctx P x y) (next : ∀ a, P a → C.Meets ctx Q (f a) (g a)) :
    C.Meets ctx Q (x >>= f) (y >>= g) where
  same := by
    rw [first.same]
    funext m
    rw [Checking.bind_apply, Checking.bind_apply]
    cases out : x m with
    | error e => rfl
    | ok result => exact congrFun (next result.1 (first.result out)).same result.2
  result := by
    intro m b m' ok
    obtain ⟨a, m₁, first_ok, next_ok⟩ := Checking.bind_ok ok
    exact (next a (first.result first_ok)).result next_ok
  error := by
    intro m e failed
    rw [Checking.bind_apply] at failed
    cases out : x m with
    | error e' =>
        rw [out] at failed
        cases failed
        exact first.error out
    | ok result =>
        rw [out] at failed
        exact (next result.1 (first.result out)).error failed

/-- A condition that has to hold before the computation goes on. -/
theorem guard {P : α → Prop} {yes : Bool} {e : TypeError} {rest rest' : Checking α}
    (here : C.Error ctx e) (next : C.Meets ctx P rest rest') :
    C.Meets ctx P (if (!yes) = true then Checking.fail e >>= fun _ : Unit => rest else rest)
      (if (!yes) = true then Checking.fail e >>= fun _ : Unit => rest' else rest') := by
  split
  · exact (fail (P := fun _ => True) here).bind fun _ _ => next
  · exact next

/-- What meets the condition under a binder meets it around the binder. -/
theorem around {P : α → Prop} {x y : Checking α} {name : String} {type : Term}
    (inner : C.Meets (ctx.extend name type) P x y) : C.Meets ctx P x y where
  same := inner.same
  result := inner.result
  error := fun failed => (inner.error failed).around

/-- A reduction keeps the condition. -/
theorem normal {n : Nat} (holds : C.holds n t) :
    C.Meets ctx (C.holds n) (normal ar env t) (normal ar env' t) where
  same := by
    funext m
    rw [BoxCalculus.normal, BoxCalculus.normal, C.reduce_eq holds]
  result := by
    intro m u m' ok
    exact C.reduce (reduce_iff.2 (normal_ok_iff.1 ok).1) holds
  error := by
    intro m e failed
    obtain ⟨_, _, _, -, -, stopped⟩ := normal_error failed
    cases stopped

/-- Asking for the universe keeps the condition. -/
theorem isUniverse {n : Nat} (holds : C.holds n t) :
    C.Meets ctx (fun _ => True) (isUniverse ar env t) (isUniverse ar env' t) := by
  refine (normal holds).bind fun actual _ => ?_
  exact (normal (C.univ (n := n))).bind fun expected _ => pure trivial

/-- A term that has to be a type before the computation goes on. -/
theorem isType {P : α → Prop} {n : Nat} {x y : Checking Term} {e : TypeError}
    {rest rest' : Checking α} (judged : C.Meets ctx (C.holds n) x y) (error : C.Error ctx e)
    (next : C.Meets ctx P rest rest') :
    C.Meets ctx P
      (do
        if !(← BoxCalculus.isUniverse ar env (← x)) then Checking.fail e
        rest)
      (do
        if !(← BoxCalculus.isUniverse ar env' (← y)) then Checking.fail e
        rest') := by
  refine judged.bind fun type found => ?_
  exact (isUniverse found).bind fun yes _ => guard error next

end Meets

/-- The condition holds of the type that is given, if one is. -/
def Asked (C : Condition ar env env') (n : Nat) : Mode → Prop
  | .infer => True
  | .against type => C.holds n type

/-- The condition holds of a type that is inferred. (A type that has been given is not asked for
again.) -/
def Found (C : Condition ar env env') (n : Nat) : Mode → Term → Prop
  | .infer, type => C.holds n type
  | .against _, _ => True

namespace Meets

variable {mode : Mode} (context : C.context ctx)
include context

/-- Settling a type keeps the condition. -/
theorem settle {actual : Term} (asked : C.Asked ctx.length mode) (holds : C.holds ctx.length t)
    (found : C.holds ctx.length actual) :
    C.Meets ctx (C.Found ctx.length mode) (mode.settle ar env t actual ctx)
      (mode.settle ar env' t actual ctx) := by
  cases mode with
  | infer => exact pure found
  | against expected =>
      refine (normal found).bind fun actual actual_holds => ?_
      refine (normal asked).bind fun expected expected_holds => ?_
      split
      · exact pure trivial
      · refine fail (.here context rfl ?_)
        simp [TypeError.terms, TypeError.mismatch, holds, actual_holds, expected_holds]

/-- Finishing with the instance of a family of types. -/
theorem settle_subst {family value : Term} (asked : C.Asked ctx.length mode)
    (holds : C.holds ctx.length t) (family_holds : C.holds (ctx.length + 1) family)
    (value_holds : C.holds ctx.length value) :
    C.Meets ctx (C.Found ctx.length mode)
      (BoxCalculus.normal ar env (family.subst ar value 0) >>= fun type =>
        mode.settle ar env t type ctx)
      (BoxCalculus.normal ar env' (family.subst ar value 0) >>= fun type =>
        mode.settle ar env' t type ctx) :=
  (normal (C.subst _ family_holds value_holds)).bind fun _ found => settle context asked holds found

/-- A declaration that is found meets the condition, and so do its constructors. -/
theorem declaration (holds : C.holds ctx.length t) :
    C.Meets ctx (fun out => C.holds ctx.length out.1 ∧
        ∀ term ∈ out.2.terms, C.holds (ctx.length + 1) term)
      (declaration ar env t ctx) (declaration ar env' t ctx) := by
  refine (normal holds).bind fun nf nf_holds => ?_
  have other : C.Error ctx ⟨.notInductive, "", some t, none, some nf, ctx⟩ :=
    .here context rfl (by simp [TypeError.terms, holds, nf_holds])
  cases nf with
  | data name type ctrs => exact pure ⟨nf_holds, (C.data.1 nf_holds).1⟩
  | _ => exact fail other

end Meets

variable (C)

/-- The condition holds of the type of a branch. -/
theorem branchType {n : Nat} {type motive value : Term} (type_holds : C.holds n type)
    (motive_holds : C.holds (n + 1) motive) (value_holds : C.holds n value) :
    C.holds n (branchType ar type motive value) := by
  induction type generalizing n motive value with
  | pi erased name dom cod _ cod_ih =>
      obtain ⟨dom_holds, cod_holds⟩ := C.pi.1 type_holds
      refine C.pi.2 ⟨dom_holds, cod_ih cod_holds (C.shift_one 1 motive_holds) ?_⟩
      exact C.app.2 ⟨C.shift_one 0 value_holds, C.bound (n + 1) 0 (by omega)⟩
  | _ => exact C.subst n motive_holds value_holds

/-- The condition holds of the type of the body of a split. -/
theorem splitBodyType {n : Nat} (erased : Bool) {sigma motive : Term}
    (sigma_holds : C.holds n sigma) (motive_holds : C.holds (n + 1) motive) :
    C.holds (n + 2) (splitBodyType ar erased sigma motive) := by
  refine C.subst (n + 2) (C.shift n 2 1 motive_holds) (C.pair.2 ⟨C.shift n 2 0 sigma_holds, ?_, ?_⟩)
  · exact C.bound (n + 2) 1 (by omega)
  · exact C.bound (n + 2) 0 (by omega)

/-- `Judged t` says that the checker keeps the condition at `t`, in every context and mode. -/
def Judged (t : Term) : Prop :=
  ∀ ⦃ctx : Context⦄ (mode : Mode), C.context ctx → C.Asked ctx.length mode → C.holds ctx.length t →
    C.Meets ctx (C.Found ctx.length mode) (t.judge ar env ctx mode) (t.judge ar env' ctx mode)

namespace Judged

variable {C} {ctx : Context} {mode : Mode}

/-- The checker keeps the condition at a variable. -/
theorem var (i : Int) : C.Judged (.var i) := by
  intro ctx mode context asked holds
  unfold Term.judge
  cases found : ctx.lookup ar i with
  | none => exact .fail (Error.here context rfl (by simp [TypeError.terms, TypeError.about, holds]))
  | some binding => exact .settle context asked holds (lookup context found)

/-- The formation of a type from a type and a family of types. -/
theorem formation (kind : ErrorKind) {t dom cod : Term} (name : String) (context : C.context ctx)
    (asked : C.Asked ctx.length mode) (holds : C.holds ctx.length t)
    (dom_holds : C.holds ctx.length dom) (cod_holds : C.holds (ctx.length + 1) cod)
    (dom_judged : C.Judged dom) (cod_judged : C.Judged cod) :
    C.Meets ctx (C.Found ctx.length mode)
      (do
        if !(← isUniverse ar env (← dom.judge ar env ctx .infer)) then
          Checking.fail (.about kind t ctx)
        let inner := ctx.extend name (← normal ar env dom)
        if !(← isUniverse ar env (← cod.judge ar env inner .infer)) then
          Checking.fail (.about kind t ctx)
        mode.settle ar env t .univ ctx)
      (do
        if !(← isUniverse ar env' (← dom.judge ar env' ctx .infer)) then
          Checking.fail (.about kind t ctx)
        let inner := ctx.extend name (← normal ar env' dom)
        if !(← isUniverse ar env' (← cod.judge ar env' inner .infer)) then
          Checking.fail (.about kind t ctx)
        mode.settle ar env' t .univ ctx) := by
  have error : C.Error ctx (.about kind t ctx) :=
    Error.here context rfl (by simp [TypeError.terms, TypeError.about, holds])
  refine Meets.isType (dom_judged .infer context trivial dom_holds) error ?_
  refine (Meets.normal dom_holds).bind fun nf nf_holds => ?_
  have inner : C.context (ctx.extend name nf) := ⟨nf_holds, context⟩
  refine Meets.isType (cod_judged .infer inner trivial cod_holds).around error ?_
  exact .settle context asked holds C.univ

/-- The checker keeps the condition at a function type if it does at both parts. -/
theorem pi (erased : Bool) (name : String) {dom cod : Term} (dom_judged : C.Judged dom)
    (cod_judged : C.Judged cod) : C.Judged (.pi erased name dom cod) := by
  intro ctx mode context asked holds
  obtain ⟨dom_holds, cod_holds⟩ := C.pi.1 holds
  unfold Term.judge
  exact formation .illFormedPi name context asked holds dom_holds cod_holds dom_judged cod_judged

/-- The checker keeps the condition at a pair type if it does at both parts. -/
theorem sigma (erased : Bool) (name : String) {fst snd : Term} (fst_judged : C.Judged fst)
    (snd_judged : C.Judged snd) : C.Judged (.sigma erased name fst snd) := by
  intro ctx mode context asked holds
  obtain ⟨fst_holds, snd_holds⟩ := C.sigma.1 holds
  unfold Term.judge
  exact formation .illFormedSigma name context asked holds fst_holds snd_holds fst_judged snd_judged

/-- The checker keeps the condition at a lambda if it does at the body. -/
theorem lam (erased : Bool) (name : String) (dom : Term) {body : Term}
    (body_judged : C.Judged body) : C.Judged (.lam erased name dom body) := by
  intro ctx mode context asked holds
  obtain ⟨dom_holds, body_holds⟩ := C.lam.1 holds
  unfold Term.judge
  dsimp only
  split
  · -- Without a domain the lambda has to be checked against a function type.
    cases mode with
    | infer =>
        refine .fail (Error.here context rfl ?_)
        simp [TypeError.terms, TypeError.about, -lam, holds]
    | against wanted =>
        refine (Meets.normal asked).bind fun expected expected_holds => ?_
        have other : C.Error ctx
            ⟨.cannotInferLambda, "", some (.lam erased name dom body), some expected, none, ctx⟩ :=
          Error.here context rfl (by simp [TypeError.terms, -lam, holds, expected_holds])
        cases expected with
        | pi erased' name' dom' cod =>
            obtain ⟨dom_holds', cod_holds⟩ := C.pi.1 expected_holds
            have inner : C.context (ctx.extend name dom') := ⟨dom_holds', context⟩
            exact (body_judged (.against cod) inner cod_holds body_holds).around
        | _ => exact .fail other
  · refine (Meets.normal dom_holds).bind fun nf nf_holds => ?_
    have inner : C.context (ctx.extend name nf) := ⟨nf_holds, context⟩
    refine (body_judged .infer inner trivial body_holds).around.bind fun cod cod_holds => ?_
    exact .settle context asked holds (C.pi.2 ⟨nf_holds, cod_holds⟩)

/-- The checker keeps the condition at an application if it does at both parts. -/
theorem app (erased : Bool) {fn arg : Term} (fn_judged : C.Judged fn) (arg_judged : C.Judged arg) :
    C.Judged (.app erased fn arg) := by
  intro ctx mode context asked holds
  obtain ⟨fn_holds, arg_holds⟩ := C.app.1 holds
  unfold Term.judge
  refine (fn_judged .infer context trivial fn_holds).bind fun type found => ?_
  refine (Meets.normal found).bind fun fnType fnType_holds => ?_
  have other : C.Error ctx
      ⟨.nonFunctionApplication, "", some (.app erased fn arg), none, some fnType, ctx⟩ :=
    Error.here context rfl (by simp [TypeError.terms, -app, holds, fnType_holds])
  cases fnType with
  | pi erased' name dom cod =>
      obtain ⟨dom_holds, cod_holds⟩ := C.pi.1 fnType_holds
      refine (arg_judged (.against dom) context dom_holds arg_holds).bind fun _ _ => ?_
      refine (Meets.normal arg_holds).bind fun argument argument_holds => ?_
      exact .settle_subst context asked holds cod_holds argument_holds
  | _ => exact .fail other

/-- The checker keeps the condition at a pair if it does at both components. -/
theorem pair (erased : Bool) (type : Term) {fst snd : Term} (fst_judged : C.Judged fst)
    (snd_judged : C.Judged snd) : C.Judged (.pair erased type fst snd) := by
  intro ctx mode context asked holds
  obtain ⟨type_holds, fst_holds, snd_holds⟩ := C.pair.1 holds
  unfold Term.judge
  refine (Meets.normal type_holds).bind fun nf nf_holds => ?_
  have other : C.Error ctx
      ⟨.nonSigmaPair, "", some (.pair erased type fst snd), none, some nf, ctx⟩ :=
    Error.here context rfl (by simp [TypeError.terms, -pair, holds, nf_holds])
  cases nf with
  | sigma erased' name fstType sndType =>
      obtain ⟨fstType_holds, sndType_holds⟩ := C.sigma.1 nf_holds
      refine (fst_judged (.against fstType) context fstType_holds fst_holds).bind fun _ _ => ?_
      refine (Meets.normal fst_holds).bind fun component component_holds => ?_
      have demanded := C.subst _ sndType_holds component_holds
      refine (snd_judged (.against _) context demanded snd_holds).bind fun _ _ => ?_
      exact .settle context asked holds nf_holds
  | _ => exact .fail other

/-- The motive of an elimination, which has to be a type. -/
theorem motive_type {motive type : Term} {name : String} {P : α → Prop}
    {rest rest' : Checking α} (context : C.context ctx) (type_holds : C.holds ctx.length type)
    (motive_holds : C.holds (ctx.length + 1) motive) (motive_judged : C.Judged motive)
    (next : C.Meets ctx P rest rest') :
    C.Meets ctx P
      (do
        if !(← isUniverse ar env (← motive.judge ar env (ctx.extend name type) .infer)) then
          Checking.fail (.mismatch motive .univ none (ctx.extend name type))
        rest)
      (do
        if !(← isUniverse ar env' (← motive.judge ar env' (ctx.extend name type) .infer)) then
          Checking.fail (.mismatch motive .univ none (ctx.extend name type))
        rest') := by
  have inner : C.context (ctx.extend name type) := ⟨type_holds, context⟩
  have error : C.Error (ctx.extend name type)
      (.mismatch motive .univ none (ctx.extend name type)) := by
    refine .here inner rfl ?_
    simp only [TypeError.terms, TypeError.mismatch, Option.toList_some, Option.toList_none,
      List.append_nil, List.cons_append, List.nil_append, List.forall_mem_cons]
    exact ⟨motive_holds, C.univ, by simp⟩
  exact Meets.isType (motive_judged .infer inner trivial motive_holds).around error.around next

/-- The checker keeps the condition at a split if it does at its three parts. -/
theorem split (erased : Bool) (name fstName sndName : String) {scrutinee motive body : Term}
    (scrutinee_judged : C.Judged scrutinee) (motive_judged : C.Judged motive)
    (body_judged : C.Judged body) :
    C.Judged (.split erased scrutinee name motive fstName sndName body) := by
  intro ctx mode context asked holds
  obtain ⟨scrutinee_holds, motive_holds, body_holds⟩ := C.split.1 holds
  unfold Term.judge
  refine (scrutinee_judged .infer context trivial scrutinee_holds).bind fun type found => ?_
  refine (Meets.normal found).bind fun nf nf_holds => ?_
  have other : C.Error ctx ⟨.nonSigmaSplit, "", some scrutinee, none, some nf, ctx⟩ :=
    .here context rfl (by simp [TypeError.terms, scrutinee_holds, nf_holds])
  cases nf with
  | sigma erased' name' fstType sndType =>
      obtain ⟨fstType_holds, sndType_holds⟩ := C.sigma.1 nf_holds
      refine motive_type context nf_holds motive_holds motive_judged ?_
      have components : C.context ((ctx.extend fstName fstType).extend sndName sndType) :=
        ⟨sndType_holds, fstType_holds, context⟩
      have demanded := C.splitBodyType erased nf_holds motive_holds
      refine (body_judged (.against _) components demanded body_holds).around.around.bind
        fun _ _ => ?_
      refine (Meets.normal scrutinee_holds).bind fun value value_holds => ?_
      exact .settle_subst context asked holds motive_holds value_holds
  | _ => exact .fail other

/-- The checker keeps the condition at a declaration, whose parts it does not judge. -/
theorem data (name : String) (type : Term) (ctrs : Entries) : C.Judged (.data name type ctrs) := by
  intro ctx mode context asked holds
  unfold Term.judge
  exact (Meets.normal (C.data.1 holds).2).bind fun nf found => .settle context asked holds found

/-- The checker keeps the condition at a constructor, whose declaration it does not judge. -/
theorem ctr (name : String) (type : Term) : C.Judged (.ctr name type) := by
  intro ctx mode context asked holds
  unfold Term.judge
  refine (Meets.declaration context (C.ctr.1 holds)).bind ?_
  rintro ⟨declared, ctrs⟩ ⟨declared_holds, ctrs_hold⟩
  dsimp only
  cases found : ctrs.find? name with
  | none => exact .fail (.here context rfl (by simp [TypeError.terms, -ctr, holds]))
  | some ctrType =>
      have ctrType_holds := ctrs_hold ctrType (List.mem_map_of_mem (Entries.mem_of_find? found))
      exact .settle_subst context asked holds ctrType_holds declared_holds

/-- The branches of a case analysis are checked in order, as each of them is. -/
theorem entries (context : C.context ctx) {declared motive : Term}
    (declared_holds : C.holds ctx.length declared)
    (motive_holds : C.holds (ctx.length + 1) motive) :
    ∀ {branches ctrs : Entries}, (∀ entry ∈ branches.toList, C.Judged entry.2) →
      (∀ term ∈ branches.terms, C.holds ctx.length term) →
      (∀ term ∈ ctrs.terms, C.holds (ctx.length + 1) term) →
      C.Meets ctx (fun _ => True) (branches.judge ar env ctrs declared motive ctx)
        (branches.judge ar env' ctrs declared motive ctx)
  | .nil, _, _, _, _ => .pure trivial
  | .cons label branch rest, .nil, _, _, _ => .pure trivial
  | .cons label branch rest, .cons name type ctrs, each, branches_hold, ctrs_hold => by
      simp only [Entries.toList, List.forall_mem_cons] at each
      simp only [Entries.terms_cons, List.forall_mem_cons] at branches_hold ctrs_hold
      simp only [Entries.judge]
      refine (Meets.normal (C.subst _ ctrs_hold.1 declared_holds)).bind fun type type_holds => ?_
      have value_holds : C.holds ctx.length (.ctr name declared) := C.ctr.2 declared_holds
      have demanded := C.branchType type_holds motive_holds value_holds
      refine (each.1 (.against _) context demanded branches_hold.1).bind fun _ _ => ?_
      exact entries context declared_holds motive_holds each.2 branches_hold.2 ctrs_hold.2

/-- The checker keeps the condition at a case analysis if it does at the scrutinee, the motive and
the branches. -/
theorem caseOf (type : Term) (name : String) {value motive : Term} {branches : Entries}
    (value_judged : C.Judged value) (motive_judged : C.Judged motive)
    (branches_judged : ∀ entry ∈ branches.toList, C.Judged entry.2) :
    C.Judged (.caseOf type value name motive branches) := by
  intro ctx mode context asked holds
  obtain ⟨type_holds, value_holds, motive_holds, branches_hold⟩ := C.caseOf.1 holds
  unfold Term.judge
  refine (Meets.declaration context type_holds).bind ?_
  rintro ⟨declared, ctrs⟩ ⟨declared_holds, ctrs_hold⟩
  dsimp only
  cases mismatchedLabel? branches.labels ctrs.labels with
  | some label => exact .fail (.here context rfl (by simp [TypeError.terms, -caseOf, holds]))
  | none =>
      dsimp only
      refine (value_judged .infer context trivial value_holds).bind fun type found => ?_
      refine (Meets.normal found).bind fun valueType valueType_holds => ?_
      have error : C.Error ctx (.mismatch value declared (some valueType) ctx) := by
        refine .here context rfl ?_
        simp [TypeError.terms, TypeError.mismatch, value_holds, declared_holds, valueType_holds]
      refine .guard error (motive_type context valueType_holds motive_holds motive_judged ?_)
      have judged :=
        entries context declared_holds motive_holds branches_judged branches_hold ctrs_hold
      refine judged.bind fun _ _ => ?_
      refine (Meets.normal value_holds).bind fun scrutinee scrutinee_holds => ?_
      exact .settle_subst context asked holds motive_holds scrutinee_holds

/-- The checker keeps the condition at a duplication if it does at both parts. -/
theorem dup (name : String) {value body : Term} (value_judged : C.Judged value)
    (body_judged : C.Judged body) : C.Judged (.dup name value body) := by
  intro ctx mode context asked holds
  obtain ⟨value_holds, body_holds⟩ := C.dup.1 holds
  unfold Term.judge
  refine (value_judged .infer context trivial value_holds).bind fun type found => ?_
  refine (Meets.normal found).bind fun valueType valueType_holds => ?_
  have other : C.Error ctx ⟨.unboxedDuplication, "", some value, none, some valueType, ctx⟩ :=
    .here context rfl (by simp [TypeError.terms, value_holds, valueType_holds])
  cases valueType with
  | boxType content =>
      have inner : C.context (ctx.extend name content) := ⟨C.boxType.1 valueType_holds, context⟩
      refine (body_judged .infer inner trivial body_holds).around.bind fun bodyType found => ?_
      refine (Meets.normal value_holds).bind fun nf nf_holds => ?_
      cases nf with
      | box content => exact .settle_subst context asked holds found (C.box.1 nf_holds)
      | _ => exact .settle_subst context asked holds found nf_holds
  | _ => exact .fail other

/-- The checker keeps the condition at a box if it does at the content. -/
theorem box {value : Term} (value_judged : C.Judged value) : C.Judged (.box value) := by
  intro ctx mode context asked holds
  unfold Term.judge
  refine (value_judged .infer context trivial (C.box.1 holds)).bind fun type found => ?_
  exact .settle context asked holds (C.boxType.2 found)

/-- The checker keeps the condition at a box type if it does at the type of the content. -/
theorem boxType {type : Term} (type_judged : C.Judged type) : C.Judged (.boxType type) := by
  intro ctx mode context asked holds
  have type_holds := C.boxType.1 holds
  unfold Term.judge
  refine Meets.isType (type_judged .infer context trivial type_holds) (.here context rfl ?_) ?_
  · simp [TypeError.terms, TypeError.mismatch, type_holds]
  · exact .settle context asked holds C.univ

end Judged

/-- The checker keeps a condition. -/
theorem judge (t : Term) : C.Judged t := by
  induction t with
  | hole =>
      intro ctx mode _ _ _
      refine ⟨rfl, ?_, ?_⟩
      · intro m a m' ok
        cases ok
      · intro m e failed
        cases failed
  | var i => exact .var i
  | univ => exact fun ctx mode context asked holds => .settle context asked holds C.univ
  | ref name =>
      intro ctx mode context _ _
      exact .fail (.here context rfl (by simp [TypeError.terms]))
  | pi erased name dom cod dom_ih cod_ih => exact .pi erased name dom_ih cod_ih
  | lam erased name dom body _ body_ih => exact .lam erased name dom body_ih
  | app erased fn arg fn_ih arg_ih => exact .app erased fn_ih arg_ih
  | sigma erased name fst snd fst_ih snd_ih => exact .sigma erased name fst_ih snd_ih
  | pair erased type fst snd _ fst_ih snd_ih => exact .pair erased type fst_ih snd_ih
  | split erased scrutinee name motive fstName sndName body scrutinee_ih motive_ih body_ih =>
      exact .split erased name fstName sndName scrutinee_ih motive_ih body_ih
  | data name type ctrs => exact .data name type ctrs
  | ctr name type => exact .ctr name type
  | caseOf type value name motive branches _ value_ih motive_ih branches_ih =>
      exact .caseOf type name value_ih motive_ih branches_ih
  | dup name value body value_ih body_ih => exact .dup name value_ih body_ih
  | box value value_ih => exact .box value_ih
  | boxType type type_ih => exact .boxType type_ih

section Kernel

variable {t type : Term} {ctx : Context} (context : C.context ctx) (holds : C.holds ctx.length t)
include context holds

/-- What checking a term against a type does. -/
theorem check (type_holds : C.holds ctx.length type) :
    C.Meets ctx (fun _ => True) (t.check ar env type ctx) (t.check ar env' type ctx) :=
  (C.judge t (.against type) context type_holds holds).bind fun _ _ => .pure trivial

/-- What inferring the type of a term does. -/
theorem infer : C.Meets ctx (C.holds ctx.length) (t.infer ar env ctx) (t.infer ar env' ctx) :=
  C.judge t .infer context trivial holds

end Kernel

section Closed

variable (fuel : Int) (canceled : Bool) {t type : Term} (holds : C.holds 0 t)
include holds

/-- The kernel infers the same in both environments. -/
theorem kernel_infer_eq :
    (⟨ar, env', fuel⟩ : Kernel).infer canceled t = (⟨ar, env, fuel⟩ : Kernel).infer canceled t :=
  congrArg (fun x => x.run' (Meter.start fuel canceled))
    (C.infer (show C.context .empty from trivial) holds).same

/-- The kernel accepts the same in both environments. -/
theorem kernel_check_eq (type_holds : C.holds 0 type) :
    (⟨ar, env', fuel⟩ : Kernel).check canceled t type =
      (⟨ar, env, fuel⟩ : Kernel).check canceled t type :=
  congrArg (fun x => x.run' (Meter.start fuel canceled))
    (C.check (show C.context .empty from trivial) holds type_holds).same

end Closed

end Condition

end BoxCalculus
