import BoxCalculus.Proofs.ExpandedReferences
import BoxCalculus.Proofs.NormalForms
import BoxCalculus.Proofs.Resumption
import BoxCalculus.Proofs.VariableQueries

/-!
# References to checked definitions

If an annotated definition has been checked, the type of each reference to it can be inferred and is
the annotation, up to conversion (`Book.checked_reference`).

A term that is not a lambda without a domain is checked by inferring its type (`Defers.judge`), and a
reference to it stands for the term. A lambda without a domain is wrapped into the identity on the
annotation. The type of the identity is the annotation twice, once raised over the binder of the
argument and lowered again when the argument is put in (`infer_wrapped`). This gives the annotation
back unless an index overflows (`Book.wrapped_annotation_changes`).
-/

namespace BoxCalculus

/-- `Defers f x y` says that `x` does what `y` does and goes on with `f`. -/
def Defers (f : α → Checking β) (x : Checking β) (y : Checking α) : Prop :=
  x = y >>= f

namespace Defers

/-- A computation defers if what follows its first half does. -/
theorem bind {f : α → Checking β} {x : Checking γ} {next : γ → Checking β} {next' : γ → Checking α}
    (defers : ∀ a, Defers f (next a) (next' a)) : Defers f (x >>= next) (x >>= next') := by
  rw [Defers, bind_assoc]
  exact bind_congr defers

/-- A computation that fails does not go on. -/
theorem fail {f : α → Checking β} (e : TypeError) : Defers f (Checking.fail e) (Checking.fail e) :=
  rfl

/-- A guard may be put in front of a computation that defers. -/
theorem guard {f : α → Checking β} {yes : Bool} {e : TypeError} {rest : Checking β}
    {rest' : Checking α} (defers : Defers f rest rest') :
    Defers f (if (!yes) = true then Checking.fail e >>= fun _ : Unit => rest else rest)
      (if (!yes) = true then Checking.fail e >>= fun _ : Unit => rest' else rest') := by
  cases yes with
  | true => exact defers
  | false => exact rfl

variable {ar : Arith} {env : Env}

/-- Settling a type against another is settling it without one and then comparing. -/
theorem settle (type t actual : Term) (ctx : Context) :
    Defers (fun actual => (Mode.against type).settle ar env t actual ctx)
      ((Mode.against type).settle ar env t actual ctx) (Mode.infer.settle ar env t actual ctx) :=
  (pure_bind ..).symm

/-- A term other than a lambda without a domain is checked by inferring its type and comparing. -/
theorem judge {t : Term} (has : t.lacksDomain = false) (ctx : Context) (type : Term) :
    Defers (fun actual => (Mode.against type).settle ar env t actual ctx)
      (t.judge ar env ctx (.against type)) (t.judge ar env ctx .infer) := by
  cases t with
  | hole => rfl
  | var index =>
      unfold Term.judge
      cases ctx.lookup ar index with
      | none => exact fail _
      | some binding => exact settle ..
  | univ => exact settle ..
  | ref name => exact fail _
  | pi erased name dom cod =>
      unfold Term.judge
      exact bind fun _ => bind fun _ => guard <| bind fun _ => bind fun _ => bind fun _ =>
        guard <| settle ..
  | lam erased name dom body =>
      have given : ¬ dom.isHole = true := Bool.eq_false_iff.1 has
      unfold Term.judge
      dsimp only
      rw [if_neg given, if_neg given]
      exact bind fun _ => bind fun _ => settle ..
  | app erased fn arg =>
      unfold Term.judge
      refine bind fun _ => bind fun fnType => ?_
      cases fnType with
      | pi => exact bind fun _ => bind fun _ => bind fun _ => settle ..
      | _ => exact fail _
  | sigma erased name fst snd =>
      unfold Term.judge
      exact bind fun _ => bind fun _ => guard <| bind fun _ => bind fun _ => bind fun _ =>
        guard <| settle ..
  | pair erased type fst snd =>
      unfold Term.judge
      refine bind fun nf => ?_
      cases nf with
      | sigma => exact bind fun _ => bind fun _ => bind fun _ => settle ..
      | _ => exact fail _
  | split erased scrutinee name motive fstName sndName body =>
      unfold Term.judge
      refine bind fun _ => bind fun nf => ?_
      cases nf with
      | sigma =>
          exact bind fun _ => bind fun _ => guard <| bind fun _ => bind fun _ => bind fun _ => settle ..
      | _ => exact fail _
  | data name type ctrs =>
      unfold Term.judge
      exact bind fun _ => settle ..
  | ctr name type =>
      unfold Term.judge
      refine bind fun found => ?_
      obtain ⟨declared, ctrs⟩ := found
      dsimp only
      cases ctrs.find? name with
      | some ctrType => exact bind fun _ => settle ..
      | none => exact fail _
  | caseOf type value name motive branches =>
      unfold Term.judge
      refine bind fun found => ?_
      obtain ⟨declared, ctrs⟩ := found
      dsimp only
      cases mismatchedLabel? branches.labels ctrs.labels with
      | some label => exact fail _
      | none =>
          exact bind fun _ => bind fun _ => guard <| bind fun _ => bind fun _ => guard <|
            bind fun _ => bind fun _ => bind fun _ => settle ..
  | dup name value body =>
      unfold Term.judge
      refine bind fun _ => bind fun valueType => ?_
      cases valueType with
      | boxType => exact bind fun _ => bind fun _ => bind fun _ => settle ..
      | _ => exact fail _
  | box value =>
      unfold Term.judge
      exact bind fun _ => settle ..
  | boxType type =>
      unfold Term.judge
      exact bind fun _ => bind fun _ => guard <| settle ..

end Defers

section Meters

variable {ar : Arith} {env : Env} {jobs : List (Bool × Term)} {m m' : Meter} {us : List Term}

/-- A run that comes to an end does so from the start as well. -/
theorem Run.restart (run : Run ar env jobs m us m') (runs : m.canceled = false)
    (within : m.steps ≤ m.limit) (going : m'.stopped = none) :
    ∃ m'', Run ar env jobs ⟨m.limit, false, 0, none⟩ us m'' ∧ m''.stopped = none := by
  -- The run is that of a meter with the steps that are left, moved on by the steps before.
  let fresh : Meter := ⟨m.limit - m.steps, false, 0, none⟩
  have same : fresh.after m.steps = m := by
    have running := run.running going
    obtain ⟨limit, canceled, steps, stopped⟩ := m
    cases runs
    cases running
    simp only [fresh, Meter.after, Nat.sub_add_cancel within, Nat.zero_add]
  obtain ⟨vs, m₀, first⟩ := run_total ar env jobs fresh
  have again := first.after m.steps rfl
  rw [same] at again
  obtain ⟨rfl, rfl⟩ := run.unique again
  have within₀ : m₀.steps ≤ fresh.limit := first.within (Nat.zero_le _) going
  have higher : fresh.limit ≤ m.limit := Nat.sub_le ..
  exact ⟨_, first.relimit within₀ (Nat.le_trans within₀ higher), going⟩

/-- The meter of a call that no fuel bounds, or what is left of it. -/
structure Meter.Endless (m : Meter) : Prop where
  ready : m.Ready
  undisturbed : m.Undisturbed
  limit : m.limit = Meter.unbounded

/-- A call without fuel starts on an endless meter. -/
theorem Meter.endless_start {fuel : Int} (endless : fuel ≤ 0) : (Meter.start fuel false).Endless := by
  rw [Meter.start, if_neg (Int.not_lt.2 endless)]
  exact ⟨⟨⟨by simp, fun beyond => absurd beyond (Nat.not_lt_zero _)⟩, rfl⟩, ⟨rfl, by simp⟩, rfl⟩

/-- A steady computation leaves an endless meter. -/
theorem Steady.endless {x : Checking α} (steady : Steady x) {m m' : Meter} {a : α}
    (endless : m.Endless) (out : x m = .ok (a, m')) : m'.Endless := by
  obtain ⟨ready, limit⟩ := steady.ready endless.ready out
  exact ⟨ready, steady.undisturbed endless.undisturbed out, limit.trans endless.limit⟩

/-- What the checker computes as the normal form of a term, however far it has come, is the normal
form. -/
theorem Kernel.reduce?_of_endless {k : Kernel} {t u : Term} (endless : m.Endless)
    (out : normal k.arith k.env t m = .ok (u, m')) : k.reduce? t = some u := by
  obtain ⟨run, going⟩ := normal_ok_iff.1 out
  have within : m.steps ≤ m.limit := by
    by_contra beyond
    have stopped := endless.ready.1.2 (Nat.lt_of_not_le beyond)
    simp [endless.ready.2] at stopped
  obtain ⟨m'', run', going'⟩ := run.restart endless.undisturbed.1 within going
  rw [endless.limit] at run'
  exact Kernel.reduce?_iff.2 ⟨m'', run', going'⟩

end Meters

section Raising

variable {ar : Arith} {env : Env} {t : Term} {f : Nat → Int → Term} {depth : Nat}

/-- Variables are replaced in the head and in the arguments of a spine. -/
theorem Term.bindVars_apply (head : Term) (args : List (Bool × Term)) :
    (head.apply args).bindVars f depth =
      (head.bindVars f depth).apply (args.map fun arg => (arg.1, arg.2.bindVars f depth)) := by
  induction args generalizing head with
  | nil => rfl
  | cons arg args ih => exact ih (.app arg.1 head arg.2)

/-- A redex stays one whatever its variables are replaced by. -/
theorem Redex.bindVars (redex : Redex env t) : Redex env (t.bindVars f depth) := by
  cases redex with
  | ref name defined => exact .ref name defined
  | appLam => exact .appLam ..
  | appDup => exact .appDup ..
  | splitPair => exact .splitPair ..
  | splitDup => exact .splitDup ..
  | dupBox => exact .dupBox ..
  | dupDup => exact .dupDup ..
  | caseCtr type label ctrType args self motive branches covered =>
      simp only [Term.bindVars, Term.bindVars_apply]
      refine .caseCtr _ _ _ _ _ _ _ ?_
      rwa [Entries.bindVars_eq_map, Entries.find?_map, Option.isSome_map]
  | caseDup => exact .caseDup ..

/-- A term is normal if it is after its variables have been replaced. -/
theorem Normal.of_bindVars (normal : Normal ar env (t.bindVars f depth)) : Normal ar env t := by
  induction t using Term.byParts generalizing depth with
  | step t ih =>
      by_cases isVar : ∃ i, t = .var i
      · obtain ⟨i, rfl⟩ := isVar
        exact normal_iff.2 ⟨rfl, fun _ mem => by cases mem⟩
      · rw [not_exists] at isVar
        obtain ⟨none, parts⟩ := normal_iff.1 normal
        rw [contract?_eq_none_iff] at none
        refine normal_iff.2 ⟨contract?_eq_none_iff.2 fun redex => none redex.bindVars, ?_⟩
        rw [Term.parts_bindVars f depth isVar, List.forall_mem_map] at parts
        exact fun part mem => ih part mem (parts part mem)

/-- What is settled after its variables have been replaced was settled before. -/
theorem Settled.of_bindVars {needed : Bool} (settled : Settled ar env (needed, t.bindVars f depth)) :
    Settled ar env (needed, t) :=
  ⟨settled.1.of_bindVars, fun gapped => settled.2 gapped.bindVars⟩

/-- Raising the free variables and putting something in for the lowest gives the term back, unless
raising them overflows. -/
theorem Term.subst_shift_word (safe : OverflowFree fun ar => t.shift ar 1 0) (value : Term) :
    (t.shift .word 1 0).subst .word value 0 = t := by
  have agree := bindVars_eq_iff.1 safe
  rw [subst, shift, bindVars_bindVars, bindVars_eq_self_iff]
  refine allVars_mono (fun k i same => ?_) agree
  simp only [decide_eq_true_eq, Arith.exact_add, Int.zero_add, Nat.zero_add] at same ⊢
  by_cases low : i < Arith.word.add 0 k
  · rw [if_pos low, bindVars, if_neg (by omega), if_neg (by omega)]
  · rw [if_neg low] at same ⊢
    by_cases bound : i < k
    · -- A bound variable that is taken for a free one would not have been raised exactly.
      rw [if_pos bound, var.injEq] at same
      exact absurd same (Arith.word_add_one_ne i)
    · rw [if_neg bound, var.injEq] at same
      have word := isWord_add i 1
      rw [same, IsWord] at word
      have back : Arith.word.add (i + 1) (-1) = i := by
        rw [Arith.word_add_eq (by omega) (by omega)]
        omega
      rw [same, bindVars, if_neg (by omega), if_pos (by omega), back]

end Raising

section Wrapping

variable {env : Env} {ctx : Context} {m m₁ m₂ : Meter} {name : String} {type nf body actual : Term}

/-- The type of the identity on a type, once the type has been reduced: its domain and, raised over the
binder, its codomain. -/
def identityType (name : String) (type : Term) : Term :=
  .pi false name type (type.shift .word 1 0)

/-- Inferring the type of an identity reduces the type that it is given. -/
theorem infer_identity (reduced : normal .word env type m = .ok (nf, m₁)) :
    (Term.lam false name type (.var 0)).judge .word env ctx .infer m =
      .ok (identityType name nf, m₁) := by
  have there : type.isHole = false := by
    obtain ⟨run, going⟩ := normal_ok_iff.1 reduced
    exact run.there_before (by simp [going])
  have looked : (ctx.extend name nf).lookup .word 0 = some ⟨name, nf.shift .word 1 0⟩ := rfl
  unfold Term.judge
  dsimp only
  rw [there, if_neg Bool.false_ne_true, Checking.bind_apply, reduced]
  dsimp only
  rw [Checking.bind_apply, Term.judge, looked]
  rfl

/-- Reducing a settled term is done at once. -/
theorem normal_of_settled {ar : Arith} {t : Term} (settled : Settled ar env (true, t))
    (going : m.stopped = none) : normal ar env t m = .ok (t, m) :=
  normal_ok_iff.2 ⟨Settled.run (List.forall_mem_singleton.2 settled) m, going⟩

/-- The type of an identity on a normal form is a normal form, if lowering its codomain again gives the
normal form back. -/
theorem settled_identityType (name : String) (settled : Settled .word env (true, nf))
    (lowered : (nf.shift .word 1 0).subst .word .univ 0 = nf) :
    Settled .word env (true, identityType name nf) := by
  -- Lowering is a traversal, and what it gives is known to be settled.
  have codomain : Settled .word env (true, nf.shift .word 1 0) := by
    rw [← lowered, Term.subst] at settled
    exact settled.of_bindVars
  refine ⟨normal_iff.2 ⟨rfl, ?_⟩, fun gapped => ?_⟩
  · simpa [identityType, Term.parts] using And.intro settled.1 codomain.1
  · cases gapped with
    | inside _ _ job mem gapped =>
        simp only [identityType, Term.early_append_late, Term.parts, Term.needsParts, List.map_cons,
          List.map_nil, List.mem_cons, List.not_mem_nil, or_false] at mem
        rcases mem with rfl | rfl
        · exact settled.2 gapped.inner
        · exact codomain.2 gapped.inner

/-- A lambda without a domain is checked by reducing the type and going on with its normal form. -/
theorem exists_judge_lacksDomain {ar : Arith} (ctx : Context) (lacks : body.lacksDomain = true) :
    ∃ next : Term → Checking Term, ∀ type,
      body.judge ar env ctx (.against type) = normal ar env type >>= next := by
  cases body with
  | lam erased name dom body =>
      have missing : dom.isHole = true := lacks
      unfold Term.judge
      dsimp only
      exact ⟨_, fun type => if_pos missing⟩
  | _ => cases lacks

/-- So it is checked alike against a type and against its normal form. -/
theorem judge_lacksDomain (ctx : Context) (lacks : body.lacksDomain = true)
    (reduced : normal .word env type m = .ok (nf, m₁)) (again : normal .word env nf m₁ = .ok (nf, m₁)) :
    body.judge .word env ctx (.against nf) m₁ = body.judge .word env ctx (.against type) m := by
  obtain ⟨next, checks⟩ := exists_judge_lacksDomain ctx lacks
  rw [checks, checks, Checking.bind_apply, Checking.bind_apply, reduced, again]

/-- The type of a lambda without a domain that is wrapped into the identity on a type it has. -/
theorem infer_wrapped (name : String) (lacks : body.lacksDomain = true)
    (reduced : normal .word env type m = .ok (nf, m₁))
    (lowered : ∀ value, (nf.shift .word 1 0).subst .word value 0 = nf)
    (checked : body.judge .word env ctx (.against type) m = .ok (actual, m₂)) :
    (Term.app false (.lam false name type (.var 0)) body).judge .word env ctx .infer m =
      (normal .word env body m₂).map fun out => (nf, out.2) := by
  obtain ⟨run, going₁⟩ := normal_ok_iff.1 reduced
  have settled : Settled .word env (true, nf) := run.settled going₁ _ List.mem_cons_self
  have whole := settled_identityType name settled (lowered _)
  -- Normal forms are reduced without a step, so the lambda is checked on the same meter as before.
  have argument := judge_lacksDomain ctx lacks reduced (normal_of_settled settled going₁)
  unfold Term.judge
  dsimp only
  rw [Checking.bind_apply, infer_identity reduced]
  dsimp only
  rw [Checking.bind_apply, normal_of_settled whole going₁]
  dsimp only [identityType]
  rw [Checking.bind_apply, argument, checked]
  dsimp only
  rw [Checking.bind_apply]
  cases result : normal .word env body m₂ with
  | error e => rfl
  | ok out =>
      obtain ⟨value, m₃⟩ := out
      have going₃ := (normal_ok_iff.1 result).2
      dsimp only
      rw [Checking.bind_apply, lowered, normal_of_settled settled going₃]
      rfl

end Wrapping

/-- The kernel infers a type of the term whose normal form has the shape of `nf`. -/
def Kernel.InfersAs (k : Kernel) (t nf : Term) : Prop :=
  ∃ type u, k.infer false t = .ok type ∧ k.reduce? type = some u ∧ u.equal nf = true

section Kernel

variable {k : Kernel} {body type : Term}

/-- A term that is accepted has been judged against the type. -/
theorem Kernel.judge_of_check (accepted : k.check false body type = .ok ()) :
    ∃ actual m, body.judge k.arith k.env .empty (.against type) (Meter.start k.fuel false) =
      .ok (actual, m) := by
  obtain ⟨m, ok⟩ := Checking.ok_of_run' accepted
  obtain ⟨actual, m₁, ok, -⟩ := Checking.bind_ok ok
  exact ⟨actual, m₁, ok⟩

/-- What is checked by inferring its type has a type with the normal form of the type that is given. -/
theorem Kernel.infersAs_of_check (endless : k.fuel ≤ 0) (has : body.lacksDomain = false)
    (accepted : k.check false body type = .ok ()) :
    ∃ nf, k.reduce? type = some nf ∧ k.InfersAs body nf := by
  obtain ⟨actual, m, ok⟩ := Kernel.judge_of_check accepted
  rw [Defers.judge has] at ok
  obtain ⟨inferred, m₁, infers, ok⟩ := Checking.bind_ok ok
  obtain ⟨u, m₂, left, ok⟩ := Checking.bind_ok ok
  obtain ⟨nf, m₃, right, ok⟩ := Checking.bind_ok ok
  have endless₁ := (Steady.judge ..).endless (Meter.endless_start endless) infers
  have endless₂ := (Steady.normal ..).endless endless₁ left
  refine ⟨nf, Kernel.reduce?_of_endless endless₂ right, inferred, u, ?_,
    Kernel.reduce?_of_endless endless₁ left, ?_⟩
  · rw [Kernel.infer, Kernel.inferIn, Term.infer, StateT.run', infers]
    rfl
  · by_contra differ
    rw [if_neg differ] at ok
    cases ok

/-- The lambda without a domain, wrapped into the identity on a type that it has, has a type with the
normal form of that type, unless raising the free variables overflows. Inferring it may not come to an
end, since the lambda is reduced when it is put in. -/
theorem Kernel.infersAs_of_wrapped {env : Env} {fuel : Int} (name : String) (endless : fuel ≤ 0)
    (lacks : body.lacksDomain = true)
    (accepted : ({ env := env, fuel := fuel } : Kernel).check false body type = .ok ()) :
    let k : Kernel := { env := env, fuel := fuel }
    let wrapped : Term := .app false (.lam false name type (.var 0)) body
    ∃ nf, k.reduce? type = some nf ∧ (OverflowFree (fun ar => nf.shift ar 1 0) →
      k.InfersAs wrapped nf ∨ ∃ stop, k.infer false wrapped = .error (.stopped stop) ∧
        stop ≠ .canceled ∧ (body.sound = true → env.Sound → stop ≠ .gap)) := by
  intro k wrapped
  obtain ⟨actual, m, ok⟩ := Kernel.judge_of_check accepted
  obtain ⟨nf, m₁, reduced⟩ : ∃ nf m₁, normal .word env type (Meter.start fuel false) = .ok (nf, m₁) := by
    obtain ⟨next, checks⟩ := exists_judge_lacksDomain .empty lacks
    rw [checks] at ok
    obtain ⟨nf, m₁, reduced, -⟩ := Checking.bind_ok ok
    exact ⟨nf, m₁, reduced⟩
  have started := Meter.endless_start endless
  refine ⟨nf, Kernel.reduce?_of_endless started reduced, fun safe => ?_⟩
  have lowered := Term.subst_shift_word safe
  have infers := infer_wrapped name lacks reduced lowered ok
  have endless' := (Steady.judge ..).endless started ok
  have answer : k.infer false wrapped =
      ((normal .word env body m).map fun out => (nf, out.2)).map Prod.fst := congrArg _ infers
  cases result : normal .word env body m with
  | ok out =>
      rw [result] at answer
      have fixed : k.reduce? nf = some nf := by
        obtain ⟨run, going⟩ := normal_ok_iff.1 reduced
        exact (Run.normalForm (k := k) run going).fixed
      exact .inl ⟨nf, nf, answer, fixed, Term.equal_equivalence.refl nf⟩
  | error e =>
      rw [result] at answer
      obtain ⟨u, m', stop, run, stopped, rfl⟩ := normal_error result
      refine .inr ⟨stop, answer, ?_, fun sound defs => ?_⟩
      · rintro rfl
        exact (run.undisturbed endless'.undisturbed).2 stopped
      · rintro rfl
        have fit : Fit (true, body) := ⟨(Term.sound_iff.1 sound).2, fun _ => (Term.sound_iff.1 sound).1⟩
        have before := (run.no_gap defs (List.forall_mem_singleton.2 fit)).2 stopped
        cases endless'.ready.2.symm.trans before

end Kernel

namespace Book

variable {book : Book} {k : Kernel} {canceled : Bool} {name : String} {definition : Definition}
  {given result : Term}

/-- The term and the annotation of a definition that has been checked can be expanded, and the term
has been checked against the annotation. -/
theorem accepted_of_check (found : book.find? name = some definition)
    (annotated : definition.type? = some given)
    (checked : book.check k canceled name = .ok result) :
    ∃ body type, book.expand definition.term = .ok body ∧ book.expand given = .ok type ∧
      k.check canceled body type = .ok () := by
  rw [check, found] at checked
  replace checked := mapError_eq_ok.1 (mapError_eq_ok.1 checked)
  obtain ⟨body, expanded, checked⟩ := ok_of_bind checked
  rw [annotated] at checked
  obtain ⟨type, expanded', checked⟩ := ok_of_bind checked
  obtain ⟨_, -, checked⟩ := ok_of_bind checked
  obtain ⟨_, accepted, -⟩ := ok_of_bind checked
  exact ⟨body, type, expanded, expanded', mapError_eq_ok.1 accepted⟩

/-- A reference to an annotated definition that has been checked expands, and its type can be inferred:
it has the normal form of the annotation, up to names and marks. If the term is a lambda without a
domain, this is so as far as inferring comes to an end, and provided that raising the free variables
of the normal form does not overflow. No run is stopped by cancellation, and none by a gap unless there
is one in the term or in a definition. -/
theorem checked_reference {env : Env} {fuel : Int} (found : book.find? name = some definition)
    (annotated : definition.type? = some given) (endless : fuel ≤ 0)
    (checked : book.check { env := env, fuel := fuel } false name = .ok result) :
    let k : Kernel := { env := env, fuel := fuel }
    ∃ body e type nf, book.expand definition.term = .ok body ∧ book.expand (.ref name) = .ok e ∧
      book.expand given = .ok type ∧ k.reduce? type = some nf ∧
      (body.lacksDomain = false → k.InfersAs e nf) ∧
      (body.lacksDomain = true → OverflowFree (fun ar => nf.shift ar 1 0) →
        k.InfersAs e nf ∨ ∃ stop, k.infer false e = .error (.stopped stop) ∧ stop ≠ .canceled ∧
          (body.sound = true → env.Sound → stop ≠ .gap)) := by
  intro k
  obtain ⟨body, type, expanded, expanded', accepted⟩ := accepted_of_check found annotated checked
  cases lacks : body.lacksDomain with
  | false =>
      have answer : book.answer book.length [] definition = .ok body :=
        answer_ok_iff.2 ⟨body, expanded, .inl ⟨rfl, .inr lacks⟩⟩
      obtain ⟨nf, reduced, infers⟩ := Kernel.infersAs_of_check endless lacks accepted
      exact ⟨body, body, type, nf, expanded, expand_ref found answer, expanded', reduced,
        fun _ => infers, fun wrapped => absurd (lacks.symm.trans wrapped) Bool.false_ne_true⟩
  | true =>
      have answer := answer_ok_iff.2 ⟨body, expanded,
        .inr ⟨given, type, annotated, lacks, expanded', rfl⟩⟩
      obtain ⟨nf, reduced, infers⟩ :=
        Kernel.infersAs_of_wrapped definition.name endless lacks accepted
      exact ⟨body, _, type, nf, expanded, expand_ref found answer, expanded', reduced,
        fun has => absurd (has.symm.trans lacks) Bool.false_ne_true, fun _ => infers⟩

/-- The type of a reference to the polymorphic identity, which has no domains, is its annotation. -/
theorem checked_reference_identity :
    let type : Term := .pi false "A" .univ (.pi false "x" (.var 0) (.var 1))
    ({ env := identityBook.lookup } : Kernel).InfersAs (.app false (.lam false "id" type (.var 0))
      (.lam false "A" .hole (.lam false "x" .hole (.var 0)))) type := by
  intro type
  have checked : identityBook.check { env := identityBook.lookup } false "id" = .ok type := rfl
  obtain ⟨body, e, type', nf, expanded, expanded', expanded'', reduced, -, infers⟩ :=
    checked_reference (by rfl) (by rfl) (Int.le_refl 0) checked
  cases expanded
  cases expanded'
  cases expanded''
  cases reduced
  rcases infers rfl rfl with infers | ⟨stop, failed, -⟩
  · exact infers
  · cases failed

/-- The book with the one definition `n : {x : data D : Type { mk : v }} Type = [x] Type`, where `v` is
the variable with the greatest index. -/
def greatestVariableBook : Book :=
  ⟨[{ name := "n", pos := ⟨"", 1, 1⟩
      type? := some (.pi false "x" (.data "D" .univ (.cons "mk" (.var 0x7fff_ffff_ffff_ffff) .nil)) .univ)
      term := .lam false "x" .hole .univ }]⟩

/-- Raised over the binder of the identity, the variable becomes the one with the least index, and is
not lowered any more. -/
theorem wrapped_annotation_changes :
    let k : Kernel := { env := greatestVariableBook.lookup }
    let given : Term :=
      .pi false "x" (.data "D" .univ (.cons "mk" (.var 0x7fff_ffff_ffff_ffff) .nil)) .univ
    let e : Term := .app false (.lam false "n" given (.var 0)) (.lam false "x" .hole .univ)
    let type : Term :=
      .pi false "x" (.data "D" .univ (.cons "mk" (.var (-0x8000_0000_0000_0000)) .nil)) .univ
    greatestVariableBook.check k false "n" = .ok given ∧
      greatestVariableBook.expand (.ref "n") = .ok e ∧ k.infer false e = .ok type ∧
      k.reduce? given = some given ∧ k.reduce? type = some type ∧
      type.equal given = false :=
  ⟨rfl, rfl, rfl, rfl, rfl, rfl⟩

end Book

end BoxCalculus
