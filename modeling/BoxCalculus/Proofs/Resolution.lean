import BoxCalculus.Proofs.CanonicalForms
import BoxCalculus.Proofs.Leaves
import BoxCalculus.Proofs.Soundness

/-!
# What the checker resolves

The checker judges some parts of a term: it asks for their types. The other parts it only reduces,
or does not look at (`Term.unjudgedParts`). A reference that it comes upon is an error, and so is a
variable that its context does not bind. So what is unresolved in an accepted term stands in a part
that is not judged (`unresolved_in_unjudged`). There it passes (`accepts_unresolved`).

A term in which the judged variables are all bound is never reported to have an unbound one
(`judging`).
-/

namespace BoxCalculus

namespace Term

/-- The parts of a term that the checker does not judge: the domain of a lambda, the type of a pair,
the constructors and the type of a declaration, and the declaration that a constructor or a case
analysis belongs to. -/
def unjudgedParts : Term → List (Nat × Term)
  | lam _ _ dom _ => [(0, dom)]
  | pair _ type _ _ => [(0, type)]
  | data _ type ctrs => (0, type) :: ctrs.toList.map fun entry => (1, entry.2)
  | ctr _ type => [(0, type)]
  | caseOf type _ _ _ _ => [(0, type)]
  | _ => []

/-- A part is judged or it is not. -/
theorem mem_parts_iff {t : Term} {part : Nat × Term} :
    part ∈ t.parts ↔ part ∈ t.judgedParts ∨ part ∈ t.unjudgedParts := by
  cases t with
  | lam | pair | data | caseOf => simp [parts, judgedParts, unjudgedParts, or_comm]
  | _ => simp [parts, judgedParts, unjudgedParts]

/-- `Below children t d u` says that `u` is `t`, or stands in it below `d` binders where one gets
from child to child. -/
inductive Below (children : Term → List (Nat × Term)) : Term → Nat → Term → Prop where
  | self (t) : Below children t 0 t
  | child {t part d u} : part ∈ children t → Below children part.2 d u →
      Below children t (part.1 + d) u

/-- `t.Within d u` says that `u` is `t`, or stands in it below `d` binders. -/
abbrev Within : Term → Nat → Term → Prop :=
  Below parts

/-- `t.Judged d u` says that `u` is `t`, or stands in it below `d` binders where the checker judges
it. -/
abbrev Judged : Term → Nat → Term → Prop :=
  Below judgedParts

/-- What is judged in a term stands in it. -/
theorem Below.within {t u : Term} {d : Nat} (judged : t.Judged d u) : t.Within d u := by
  induction judged with
  | self t => exact .self t
  | child mem _ ih => exact .child (mem_parts_iff.2 (.inl mem)) ih

/-- What stands in a term is judged, or it stands in a part that is not judged, of something that
is. -/
theorem judged_or_unjudged {t u : Term} {d : Nat} (within : t.Within d u) :
    t.Judged d u ∨ ∃ outer v part inner, t.Judged outer v ∧ part ∈ v.unjudgedParts ∧
      part.2.Within inner u ∧ d = outer + part.1 + inner := by
  induction within with
  | self t => exact .inl (.self t)
  | @child t part d u mem within ih =>
      rcases mem_parts_iff.1 mem with mem | mem
      · -- From a judged part on, the way is the one of the induction hypothesis, one step longer.
        rcases ih with judged | ⟨outer, v, part', inner, judged, mem', inside, rfl⟩
        · exact .inl (.child mem judged)
        · exact .inr ⟨part.1 + outer, v, part', inner, .child mem judged, mem', inside, by omega⟩
      · exact .inr ⟨0, t, part, d, .self t, mem, within, by omega⟩

/-- A question about the variables of a term is one about those of each term that stands in it. -/
theorem allVars_within {p : Nat → Int → Bool} {t u : Term} {n d : Nat} (all : t.allVars p n = true)
    (within : t.Within d u) : u.allVars p (n + d) = true := by
  induction within generalizing n with
  | self t => exact all
  | @child t part d u mem _ ih =>
      have isVar : ∀ j, t ≠ var j := by
        rintro j rfl
        cases mem
      rw [allVars_eq_all _ _ isVar, List.all_eq_true] at all
      rw [← Nat.add_assoc]
      exact ih (all part mem)

/-- The term is no reference, and if it is a variable then one of `n` binders binds it. -/
def Resolved (n : Nat) : Term → Prop
  | ref _ => False
  | var i => 0 ≤ i ∧ i < n
  | _ => True

/-- If the term is a variable then one of `n` binders binds it. -/
def Bound (n : Nat) : Term → Prop
  | var i => 0 ≤ i ∧ i < n
  | _ => True

/-- Below `n` binders, `P` holds of the term and of all that is judged in it. -/
def AllJudged (P : Nat → Term → Prop) (n : Nat) (t : Term) : Prop :=
  ∀ d u, t.Judged d u → P (n + d) u

variable {P : Nat → Term → Prop} {n : Nat} {t : Term}

/-- A condition holds of all that is judged if it does of the term and of its judged parts. -/
theorem allJudged_iff :
    AllJudged P n t ↔ P n t ∧ ∀ part ∈ t.judgedParts, AllJudged P (n + part.1) part.2 := by
  constructor
  · intro all
    refine ⟨all 0 t (.self t), fun part mem d u judged => ?_⟩
    rw [Nat.add_assoc]
    exact all _ u (.child mem judged)
  · rintro ⟨here, parts⟩ d u judged
    cases judged with
    | self => exact here
    | child mem judged =>
        rw [← Nat.add_assoc]
        exact parts _ mem _ u judged

end Term

/-- `Resolving P Q x` says that `P` holds if `x` succeeds, and that `x` does not report an unbound
variable if `Q` holds. -/
structure Resolving (P Q : Prop) (x : Checking α) : Prop where
  ok : ∀ {m a m'}, x m = .ok (a, m') → P
  bound : ∀ {m e}, x m = .error (.typing e) → Q → e.kind ≠ .unboundVariable

namespace Resolving

variable {P P' Q Q' : Prop}

/-- A computation with a result resolves what has been resolved. -/
theorem pure {a : α} (holds : P) : Resolving P Q (Pure.pure a : Checking α) where
  ok _ := holds
  bound failed := by cases failed

/-- A failure for another reason reports no unbound variable. -/
theorem fail {e : TypeError} (other : e.kind ≠ .unboundVariable) :
    Resolving P Q (Checking.fail e : Checking α) where
  ok ok := by cases ok
  bound failed _ := by
    cases failed
    exact other

/-- One computation after another, where the second may rely on what holds if the first has
succeeded. -/
theorem bind {x : Checking α} {f : α → Checking β} (first : Resolving P Q x) (needs : Q' → Q)
    (next : ∀ a, P → Resolving P' Q' (f a)) : Resolving P' Q' (x >>= f) where
  ok := by
    intro m b m' ok
    obtain ⟨a, m₁, first_ok, next_ok⟩ := Checking.bind_ok ok
    exact (next a (first.ok first_ok)).ok next_ok
  bound := by
    intro m e failed holds
    rw [Checking.bind_apply] at failed
    cases out : x m with
    | error e' =>
        rw [out] at failed
        cases failed
        exact first.bound out (needs holds)
    | ok result =>
        rw [out] at failed
        exact (next result.1 (first.ok out)).bound failed holds

/-- A computation that judges nothing, and then another. -/
theorem andThen {x : Checking α} {f : α → Checking β} (first : Resolving True True x)
    (next : ∀ a, Resolving P Q (f a)) : Resolving P Q (x >>= f) :=
  first.bind (fun _ => trivial) fun a _ => next a

variable (ar : Arith) (env : Env)

/-- A reduction resolves nothing and reports no unbound variable. -/
theorem normal (t : Term) : Resolving True True (normal ar env t) where
  ok _ := trivial
  bound failed := by
    obtain ⟨_, _, _, -, -, stopped⟩ := normal_error failed
    cases stopped

/-- Asking for the universe reports no unbound variable. -/
theorem isUniverse (t : Term) : Resolving True True (isUniverse ar env t) :=
  (normal ar env t).andThen fun _ => (normal ar env .univ).andThen fun _ => pure trivial

/-- Settling a type reports no unbound variable. -/
theorem settle {mode : Mode} {t actual : Term} {ctx : Context} (holds : P) :
    Resolving P Q (mode.settle ar env t actual ctx) := by
  cases mode with
  | infer => exact pure holds
  | against expected =>
      refine (normal ar env actual).andThen fun actual => ?_
      refine (normal ar env expected).andThen fun expected => ?_
      split
      · exact pure holds
      · exact fail (by simp [TypeError.mismatch])

/-- Finishing with a type that is reduced first. -/
theorem settle_normal {mode : Mode} {t type : Term} {ctx : Context} (holds : P) :
    Resolving P Q (BoxCalculus.normal ar env type >>= fun type => mode.settle ar env t type ctx) :=
  (normal ar env type).andThen fun _ => settle ar env holds

/-- Looking for a declaration reports no unbound variable. -/
theorem declaration (t : Term) (ctx : Context) :
    Resolving True True (declaration ar env t ctx) := by
  refine (normal ar env t).andThen fun nf => ?_
  split
  · exact pure trivial
  · exact fail (by simp)

variable {ar env}

/-- A condition that has to hold before the computation goes on. -/
theorem guard {yes : Bool} {e : TypeError} {rest : Checking α} (other : e.kind ≠ .unboundVariable)
    (next : Resolving P Q rest) :
    Resolving P Q (if (!yes) = true then Checking.fail e >>= fun _ : Unit => rest else rest) := by
  split
  · exact (fail (P := True) (Q := True) other).andThen fun _ => next
  · exact next

/-- A compound term is judged as its parts are. -/
theorem of_parts {n : Nat} {t : Term} {x : Checking α} (compound : t.isLeaf = false)
    (parts : Resolving
      (t.judgedParts.Forall fun part => Term.AllJudged Term.Resolved (n + part.1) part.2)
      (t.judgedParts.Forall fun part => Term.AllJudged Term.Bound (n + part.1) part.2) x) :
    Resolving (Term.AllJudged Term.Resolved n t) (Term.AllJudged Term.Bound n t) x where
  ok ok := by
    refine Term.allJudged_iff.2 ⟨?_, List.forall_iff_forall_mem.1 (parts.ok ok)⟩
    cases t with
    | var | ref => cases compound
    | _ => trivial
  bound failed bound :=
    parts.bound failed (List.forall_iff_forall_mem.2 (Term.allJudged_iff.1 bound).2)

end Resolving

/-- A variable is found in a context if one of its binders binds it. -/
theorem Context.isSome_lookup (ctx : Context) (ar : Arith) (i : Int) :
    (ctx.lookup ar i).isSome = true ↔ 0 ≤ i ∧ i < ctx.length := by
  by_cases nonneg : 0 ≤ i
  · simp only [Context.lookup, if_pos nonneg, Option.isSome_map, isSome_getElem?, Context.length]
    omega
  · simp [Context.lookup, nonneg]

/-- `Judging ar env t` says that in every context and mode the checker resolves what it judges in
`t`. -/
def Judging (ar : Arith) (env : Env) (t : Term) : Prop :=
  ∀ (ctx : Context) (mode : Mode), Resolving (Term.AllJudged Term.Resolved ctx.length t)
    (Term.AllJudged Term.Bound ctx.length t) (t.judge ar env ctx mode)

namespace Judging

variable {ar : Arith} {env : Env}

/-- The checker resolves a variable. -/
theorem var (i : Int) : Judging ar env (.var i) := by
  intro ctx mode
  unfold Term.judge
  have here := ctx.isSome_lookup ar i
  cases found : ctx.lookup ar i with
  | none =>
      constructor
      · intro m a m' ok
        cases ok
      · intro m e _ bound
        have absent := here.2 (Term.allJudged_iff.1 bound).1
        rw [found] at absent
        cases absent
  | some binding =>
      have bound : 0 ≤ i ∧ i < ctx.length := here.1 (by rw [found]; rfl)
      exact .settle ar env (Term.allJudged_iff.2 ⟨bound, by simp [Term.judgedParts]⟩)

/-- A term that has to be a type before the computation goes on. -/
theorem isType {t : Term} {ctx : Context} {e : TypeError} {P Q : Prop} {rest : Checking α}
    (judging : Judging ar env t) (other : e.kind ≠ .unboundVariable)
    (needs : Q → Term.AllJudged Term.Bound ctx.length t)
    (next : Term.AllJudged Term.Resolved ctx.length t → Resolving P Q rest) :
    Resolving P Q (do
      if !(← isUniverse ar env (← t.judge ar env ctx .infer)) then
        Checking.fail e
      rest) := by
  refine (judging ctx .infer).bind needs fun kind resolved => ?_
  exact (Resolving.isUniverse ar env kind).andThen fun yes => .guard other (next resolved)

/-- The formation of a type from a type and a family of types. -/
theorem formation (kind : ErrorKind) (other : kind ≠ .unboundVariable) (t : Term) {dom cod : Term}
    (name : String) (ctx : Context) (mode : Mode) (dom_judging : Judging ar env dom)
    (cod_judging : Judging ar env cod) :
    Resolving (Term.AllJudged Term.Resolved ctx.length dom ∧
        Term.AllJudged Term.Resolved (ctx.length + 1) cod)
      (Term.AllJudged Term.Bound ctx.length dom ∧ Term.AllJudged Term.Bound (ctx.length + 1) cod)
      (do
        if !(← isUniverse ar env (← dom.judge ar env ctx .infer)) then
          Checking.fail (.about kind t ctx)
        let inner := ctx.extend name (← normal ar env dom)
        if !(← isUniverse ar env (← cod.judge ar env inner .infer)) then
          Checking.fail (.about kind t ctx)
        mode.settle ar env t .univ ctx) := by
  refine dom_judging.isType other And.left fun dom_resolved => ?_
  refine (Resolving.normal ar env dom).andThen fun nf => ?_
  refine cod_judging.isType other And.right fun cod_resolved => ?_
  exact .settle ar env ⟨dom_resolved, cod_resolved⟩

/-- The checker resolves a function type if it resolves both parts. -/
theorem pi (erased : Bool) (name : String) {dom cod : Term} (dom_judging : Judging ar env dom)
    (cod_judging : Judging ar env cod) : Judging ar env (.pi erased name dom cod) := by
  intro ctx mode
  unfold Term.judge
  refine .of_parts rfl ?_
  exact formation .illFormedPi (by simp) _ name ctx mode dom_judging cod_judging

/-- The checker resolves a pair type if it resolves both parts. -/
theorem sigma (erased : Bool) (name : String) {fst snd : Term} (fst_judging : Judging ar env fst)
    (snd_judging : Judging ar env snd) : Judging ar env (.sigma erased name fst snd) := by
  intro ctx mode
  unfold Term.judge
  refine .of_parts rfl ?_
  exact formation .illFormedSigma (by simp) _ name ctx mode fst_judging snd_judging

/-- The checker resolves a lambda if it resolves the body. -/
theorem lam (erased : Bool) (name : String) (dom : Term) {body : Term}
    (body_judging : Judging ar env body) : Judging ar env (.lam erased name dom body) := by
  intro ctx mode
  unfold Term.judge
  refine .of_parts rfl ?_
  split
  · cases mode with
    | infer => exact .fail (by simp [TypeError.about])
    | against wanted =>
        refine (Resolving.normal ar env wanted).andThen fun expected => ?_
        split
        · exact body_judging (ctx.extend name _) (.against _)
        · exact .fail (by simp)
  · refine (Resolving.normal ar env dom).andThen fun nf => ?_
    refine (body_judging (ctx.extend name nf) .infer).bind id fun cod body_resolved => ?_
    exact .settle ar env body_resolved

/-- The checker resolves an application if it resolves both parts. -/
theorem app (erased : Bool) {fn arg : Term} (fn_judging : Judging ar env fn)
    (arg_judging : Judging ar env arg) : Judging ar env (.app erased fn arg) := by
  intro ctx mode
  unfold Term.judge
  refine .of_parts rfl ?_
  refine (fn_judging ctx .infer).bind And.left fun type fn_resolved => ?_
  refine (Resolving.normal ar env type).andThen fun fnType => ?_
  split
  · refine (arg_judging ctx (.against _)).bind And.right fun _ arg_resolved => ?_
    refine (Resolving.normal ar env arg).andThen fun argument => ?_
    exact .settle_normal ar env ⟨fn_resolved, arg_resolved⟩
  · exact .fail (by simp)

/-- The checker resolves a pair if it resolves both components. -/
theorem pair (erased : Bool) (type : Term) {fst snd : Term} (fst_judging : Judging ar env fst)
    (snd_judging : Judging ar env snd) : Judging ar env (.pair erased type fst snd) := by
  intro ctx mode
  unfold Term.judge
  refine .of_parts rfl ?_
  refine (Resolving.normal ar env type).andThen fun nf => ?_
  split
  · refine (fst_judging ctx (.against _)).bind And.left fun _ fst_resolved => ?_
    refine (Resolving.normal ar env fst).andThen fun component => ?_
    refine (snd_judging ctx (.against _)).bind And.right fun _ snd_resolved => ?_
    exact .settle ar env ⟨fst_resolved, snd_resolved⟩
  · exact .fail (by simp)

/-- The checker resolves a split if it resolves its three parts. -/
theorem split (erased : Bool) (name fstName sndName : String) {scrutinee motive body : Term}
    (scrutinee_judging : Judging ar env scrutinee) (motive_judging : Judging ar env motive)
    (body_judging : Judging ar env body) :
    Judging ar env (.split erased scrutinee name motive fstName sndName body) := by
  intro ctx mode
  unfold Term.judge
  refine .of_parts rfl ?_
  refine (scrutinee_judging ctx .infer).bind And.left fun type scrutinee_resolved => ?_
  refine (Resolving.normal ar env type).andThen fun nf => ?_
  split
  · refine motive_judging.isType (by simp [TypeError.mismatch]) (fun bound => bound.2.1)
      fun motive_resolved => ?_
    refine (body_judging ((ctx.extend fstName _).extend sndName _) (.against _)).bind
      (fun bound => bound.2.2) fun _ body_resolved => ?_
    refine (Resolving.normal ar env scrutinee).andThen fun value => ?_
    exact .settle_normal ar env ⟨scrutinee_resolved, motive_resolved, body_resolved⟩
  · exact .fail (by simp)

/-- The checker resolves nothing in a constructor. -/
theorem ctr (name : String) (type : Term) : Judging ar env (.ctr name type) := by
  intro ctx mode
  unfold Term.judge
  refine .of_parts rfl ?_
  refine (Resolving.declaration ar env type ctx).andThen ?_
  rintro ⟨declared, ctrs⟩
  dsimp only
  split
  · exact .settle_normal ar env (by simp [Term.judgedParts])
  · exact .fail (by simp)

/-- The branches are judged one by one. Since they have the labels of the constructors, there are as
many of the ones as of the others. -/
theorem entries (declared motive : Term) (ctx : Context) : ∀ {branches ctrs : Entries},
    branches.labels = ctrs.labels → (∀ entry ∈ branches.toList, Judging ar env entry.2) →
    Resolving (∀ entry ∈ branches.toList, Term.AllJudged Term.Resolved ctx.length entry.2)
      (∀ entry ∈ branches.toList, Term.AllJudged Term.Bound ctx.length entry.2)
      (branches.judge ar env ctrs declared motive ctx)
  | .nil, _, _, _ => .pure (by simp [Entries.toList])
  | .cons label branch rest, .cons name type ctrs, same, each => by
      simp only [Entries.labels, List.cons.injEq] at same
      simp only [Entries.toList, List.forall_mem_cons] at each ⊢
      simp only [Entries.judge]
      refine (Resolving.normal ar env _).andThen fun type => ?_
      refine (each.1 ctx (.against _)).bind And.left fun _ branch_resolved => ?_
      have after := entries declared motive ctx same.2 each.2
      constructor
      · exact fun ok => ⟨branch_resolved, after.ok ok⟩
      · exact fun failed bound => after.bound failed bound.2

/-- The checker resolves a case analysis if it resolves the scrutinee, the motive and the branches.
-/
theorem caseOf (type : Term) (name : String) {value motive : Term} {branches : Entries}
    (value_judging : Judging ar env value) (motive_judging : Judging ar env motive)
    (branches_judging : ∀ entry ∈ branches.toList, Judging ar env entry.2) :
    Judging ar env (.caseOf type value name motive branches) := by
  intro ctx mode
  unfold Term.judge
  refine .of_parts rfl ?_
  simp only [Term.judgedParts, List.forall_iff_forall_mem, List.forall_mem_cons,
    List.forall_mem_map]
  refine (Resolving.declaration ar env type ctx).andThen ?_
  rintro ⟨declared, ctrs⟩
  dsimp only
  cases mismatch : mismatchedLabel? branches.labels ctrs.labels with
  | some label => exact .fail (by simp)
  | none =>
      dsimp only
      refine (value_judging ctx .infer).bind And.left fun type value_resolved => ?_
      refine (Resolving.normal ar env type).andThen fun valueType => ?_
      refine .guard (by simp [TypeError.mismatch]) ?_
      refine motive_judging.isType (by simp [TypeError.mismatch]) (fun bound => bound.2.1)
        fun motive_resolved => ?_
      have same := eq_of_mismatchedLabel? mismatch
      refine (entries declared motive ctx same branches_judging).bind (fun bound => bound.2.2)
        fun _ branches_resolved => ?_
      refine (Resolving.normal ar env value).andThen fun scrutinee => ?_
      exact .settle_normal ar env ⟨value_resolved, motive_resolved, branches_resolved⟩

/-- The checker resolves a duplication if it resolves both parts. -/
theorem dup (name : String) {value body : Term} (value_judging : Judging ar env value)
    (body_judging : Judging ar env body) : Judging ar env (.dup name value body) := by
  intro ctx mode
  unfold Term.judge
  refine .of_parts rfl ?_
  refine (value_judging ctx .infer).bind And.left fun type value_resolved => ?_
  refine (Resolving.normal ar env type).andThen fun valueType => ?_
  split
  · refine (body_judging (ctx.extend name _) .infer).bind And.right fun bodyType body_resolved => ?_
    refine (Resolving.normal ar env value).andThen fun nf => ?_
    exact .settle_normal ar env ⟨value_resolved, body_resolved⟩
  · exact .fail (by simp)

/-- The checker resolves a box if it resolves the content. -/
theorem box {value : Term} (value_judging : Judging ar env value) :
    Judging ar env (.box value) := by
  intro ctx mode
  unfold Term.judge
  refine .of_parts rfl ?_
  refine (value_judging ctx .infer).bind id fun type value_resolved => ?_
  exact .settle ar env value_resolved

/-- The checker resolves a box type if it resolves the type of the content. -/
theorem boxType {type : Term} (type_judging : Judging ar env type) :
    Judging ar env (.boxType type) := by
  intro ctx mode
  unfold Term.judge
  refine .of_parts rfl ?_
  refine type_judging.isType (by simp [TypeError.mismatch]) id fun type_resolved => ?_
  exact .settle ar env type_resolved

end Judging

/-- The checker resolves what it judges. -/
theorem judging (ar : Arith) (env : Env) (t : Term) : Judging ar env t := by
  induction t with
  | hole =>
      intro ctx mode
      constructor
      · intro m a m' ok
        cases ok
      · intro m e failed
        cases failed
  | var i => exact .var i
  | univ => exact fun ctx mode => .of_parts rfl (.settle ar env (by simp [Term.judgedParts]))
  | ref name => exact fun ctx mode => .fail (by simp)
  | pi erased name dom cod dom_ih cod_ih => exact .pi erased name dom_ih cod_ih
  | lam erased name dom body _ body_ih => exact .lam erased name dom body_ih
  | app erased fn arg fn_ih arg_ih => exact .app erased fn_ih arg_ih
  | sigma erased name fst snd fst_ih snd_ih => exact .sigma erased name fst_ih snd_ih
  | pair erased type fst snd _ fst_ih snd_ih => exact .pair erased type fst_ih snd_ih
  | split erased scrutinee name motive fstName sndName body scrutinee_ih motive_ih body_ih =>
      exact .split erased name fstName sndName scrutinee_ih motive_ih body_ih
  | data name type ctrs =>
      intro ctx mode
      unfold Term.judge
      exact .of_parts rfl (.settle_normal ar env (by simp [Term.judgedParts]))
  | ctr name type => exact .ctr name type
  | caseOf type value name motive branches _ value_ih motive_ih branches_ih =>
      exact .caseOf type name value_ih motive_ih branches_ih
  | dup name value body value_ih body_ih => exact .dup name value_ih body_ih
  | box value value_ih => exact .box value_ih
  | boxType type type_ih => exact .boxType type_ih

/-- Checking a term against a type resolves what is judged in it. -/
theorem resolving_check (ar : Arith) (env : Env) (t type : Term) (ctx : Context) :
    Resolving (Term.AllJudged Term.Resolved ctx.length t) (Term.AllJudged Term.Bound ctx.length t)
      (t.check ar env type ctx) :=
  (judging ar env t ctx (.against type)).bind id fun _ resolved => .pure resolved

/-- What is unresolved in an accepted term, a reference or a variable that nothing binds, stands in
a part that is not judged. -/
theorem unresolved_in_unjudged {k : Kernel} {canceled : Bool} {t T : Term} {ctx : Context}
    (ok : k.inferIn canceled t ctx = .ok T) {d : Nat} {u : Term} (within : t.Within d u)
    (unresolved : (∃ name, u = .ref name) ∨ ∃ i, u = .var i ∧ ¬ (0 ≤ i ∧ i < ctx.length + d)) :
    ∃ outer v part inner, t.Judged outer v ∧ part ∈ v.unjudgedParts ∧
      part.2.Within inner u ∧ d = outer + part.1 + inner := by
  refine (Term.judged_or_unjudged within).resolve_left fun judged => ?_
  obtain ⟨m, out⟩ := Checking.ok_of_run' ok
  have resolved := (judging k.arith k.env t ctx .infer).ok out d u judged
  rcases unresolved with ⟨name, rfl⟩ | ⟨i, rfl, unbound⟩
  · exact resolved
  · exact unbound (by simpa [Term.Resolved] using resolved)

/-- In `[A : Type] [x : #2] x` the domain of the inner lambda is a variable that nothing binds. The
term is accepted, and the variable stands in a part of the inner lambda that is not judged. -/
theorem unresolved_in_unjudged_domain :
    let inner : Term := .lam false "x" (.var 2) (.var 0)
    let t : Term := .lam false "A" .univ inner
    let T : Term := .pi false "A" .univ (.pi false "x" (.var 2) (.var 3))
    ({} : Kernel).inferIn false t .empty = .ok T ∧
      ∃ outer v part depth, t.Judged outer v ∧ part ∈ v.unjudgedParts ∧
        part.2.Within depth (.var 2) ∧ 1 = outer + part.1 + depth := by
  intro inner t T
  have ok : ({} : Kernel).inferIn false t .empty = .ok T := rfl
  have domain : (0, .var 2) ∈ inner.parts := .head _
  have body : (1, inner) ∈ t.parts := .tail _ (.head _)
  have within : t.Within 1 (.var 2) := .child body (.child domain (.self _))
  exact ⟨ok, unresolved_in_unjudged ok within (.inr ⟨2, rfl, by decide⟩)⟩

/-- In each of the parts that are not judged, a reference that nothing defines is accepted, and so
is a variable that nothing binds. -/
theorem accepts_unresolved :
    let declared : Term := .data "D" .univ (.cons "mk" (.var 0) .nil)
    let pairs : Term := .sigma false "y" .univ .univ
    ∀ u ∈ [Term.ref "foo", Term.var 1],
      ∀ t ∈ [Term.lam false "x" u .univ,
          .pair false (.app false (.lam false "x" .univ pairs) u) .univ .univ,
          .data "D" u .nil,
          .data "D" .univ (.cons "mk" u .nil),
          .ctr "mk" (.app false (.lam false "x" .univ declared) u),
          .caseOf (.app false (.lam false "x" .univ declared) u) (.ctr "mk" declared) "s" .univ
            (.cons "mk" .univ .nil)],
        (t.refs ≠ [] ∨ t.closed = false) ∧ (({} : Kernel).infer false t).isOk = true := by
  decide

end BoxCalculus
