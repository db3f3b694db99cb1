import BoxCalculus.Proofs.Expansion

/-!
# Conditions that reduction keeps

A `Condition` says of a term and the number of binders around it whether it is in order: that its
variables are in scope, say, or that its references have no definition. What it has to respect is
shifting, substitution and the unfolding of references. Then the rules keep it, and with them every
step and every reduction (`Condition.reduce`).

A condition also compares two environments: they have to agree on the references of the terms that
are in order. Reduction then does the same under both of them (`Condition.reduce_eq`).
-/

namespace BoxCalculus

/-- A condition on terms under binders that holds of a compound term if it holds of its parts, that
shifting and substitution respect, and that the definitions of references meet. -/
structure Condition (ar : Arith) (env env' : Env) where
  /-- The condition on a term with `n` binders around it. -/
  holds : Nat → Term → Prop
  parts (n : Nat) {t : Term} : t.isLeaf = false →
    (holds n t ↔ ∀ part ∈ t.parts, holds (n + part.1) part.2)
  bound (n i : Nat) : i < n → holds n (.var i)
  shift (n delta cutoff : Nat) {t : Term} : holds (n + cutoff) t →
    holds (n + delta + cutoff) (t.shift ar delta cutoff)
  /-- The type of an entry of a context is moved past the entries that follow it. -/
  move (n i : Nat) {t : Term} : holds n t → holds (n + (i + 1)) (t.shift ar (ar.add i 1) 0)
  subst (n : Nat) {t value : Term} : holds (n + 1) t → holds n value →
    holds n (t.subst ar value 0)
  unfold (n : Nat) {name : String} {d : Term} : holds n (.ref name) → env name = some d → holds n d
  agree (n : Nat) {name : String} : holds n (.ref name) → env' name = env name

/-- Changing its parts does not make a term a leaf. -/
theorem Term.isLeaf_withParts (t : Term) (ps : List Term) : (t.withParts ps).isLeaf = t.isLeaf := by
  unfold Term.withParts
  split <;> rfl

namespace Condition

variable {ar : Arith} {env env' : Env} (C : Condition ar env env') {n : Nat} {t u : Term}

section Forms

variable {a b c : Term} {erased : Bool} {name fstName sndName : String} {entries : Entries}

/-- A condition holds of a gap. -/
@[simp] theorem hole : C.holds n .hole := by
  simp [C.parts n (t := .hole) rfl, Term.parts]

/-- A condition holds of the universe. -/
@[simp] theorem univ : C.holds n .univ := by
  simp [C.parts n (t := .univ) rfl, Term.parts]

/-- A condition holds of a function type if it does of its parts. -/
@[simp] theorem pi : C.holds n (.pi erased name a b) ↔ C.holds n a ∧ C.holds (n + 1) b := by
  simp [C.parts n (t := .pi erased name a b) rfl, Term.parts]

/-- A condition holds of a lambda if it does of its parts. -/
@[simp] theorem lam : C.holds n (.lam erased name a b) ↔ C.holds n a ∧ C.holds (n + 1) b := by
  simp [C.parts n (t := .lam erased name a b) rfl, Term.parts]

/-- A condition holds of an application if it does of its parts. -/
@[simp] theorem app : C.holds n (.app erased a b) ↔ C.holds n a ∧ C.holds n b := by
  simp [C.parts n (t := .app erased a b) rfl, Term.parts]

/-- A condition holds of a pair type if it does of its parts. -/
@[simp] theorem sigma : C.holds n (.sigma erased name a b) ↔ C.holds n a ∧ C.holds (n + 1) b := by
  simp [C.parts n (t := .sigma erased name a b) rfl, Term.parts]

/-- A condition holds of a pair if it does of its parts. -/
@[simp] theorem pair :
    C.holds n (.pair erased a b c) ↔ C.holds n a ∧ C.holds n b ∧ C.holds n c := by
  simp [C.parts n (t := .pair erased a b c) rfl, Term.parts]

/-- A condition holds of a split if it does of its parts. -/
@[simp] theorem split : C.holds n (.split erased a name b fstName sndName c) ↔
    C.holds n a ∧ C.holds (n + 1) b ∧ C.holds (n + 2) c := by
  simp [C.parts n (t := .split erased a name b fstName sndName c) rfl, Term.parts]

/-- A condition holds of a declaration if it does of its parts. -/
@[simp] theorem data : C.holds n (.data name a entries) ↔
    (∀ term ∈ entries.terms, C.holds (n + 1) term) ∧ C.holds n a := by
  rw [C.parts n (t := .data name a entries) rfl, Term.parts_data]
  simp [or_imp, forall_and]

/-- A condition holds of a constructor if it does of its declaration. -/
@[simp] theorem ctr : C.holds n (.ctr name a) ↔ C.holds n a := by
  simp [C.parts n (t := .ctr name a) rfl, Term.parts]

/-- A condition holds of a case analysis if it does of its parts. -/
@[simp] theorem caseOf : C.holds n (.caseOf a b name c entries) ↔
    C.holds n a ∧ C.holds n b ∧ C.holds (n + 1) c ∧ ∀ term ∈ entries.terms, C.holds n term := by
  rw [C.parts n (t := .caseOf a b name c entries) rfl, Term.parts_caseOf]
  simp

/-- A condition holds of a duplication if it does of its parts. -/
@[simp] theorem dup : C.holds n (.dup name a b) ↔ C.holds n a ∧ C.holds (n + 1) b := by
  simp [C.parts n (t := .dup name a b) rfl, Term.parts]

/-- A condition holds of a box if it does of its content. -/
@[simp] theorem box : C.holds n (.box a) ↔ C.holds n a := by
  simp [C.parts n (t := .box a) rfl, Term.parts]

/-- A condition holds of a box type if it does of the type of the content. -/
@[simp] theorem boxType : C.holds n (.boxType a) ↔ C.holds n a := by
  simp [C.parts n (t := .boxType a) rfl, Term.parts]

/-- A condition holds of a spine if it does of the head and the arguments. -/
theorem apply {args : List (Bool × Term)} :
    C.holds n (t.apply args) ↔ C.holds n t ∧ ∀ arg ∈ args, C.holds n arg.2 := by
  induction args generalizing t with
  | nil => simp [Term.apply]
  | cons arg args ih =>
      rw [List.forall_mem_cons, ← and_assoc, ← @app ar env env' C n t arg.2 arg.1]
      exact ih

end Forms

/-- Making room for one binder. -/
theorem shift_one (cutoff : Nat) (holds : C.holds (n + cutoff) t) :
    C.holds (n + 1 + cutoff) (t.shift ar 1 cutoff) :=
  C.shift n 1 cutoff holds

/-- The rules keep a condition. -/
theorem contract {c : Contractum} (rule : Rule ar env t c) (holds : C.holds n t) :
    C.holds n c.term := by
  cases rule with
  | unfold name d found => exact C.unfold n holds found
  | beta erased erased' name dom body arg =>
      simp only [app, lam] at holds
      obtain ⟨⟨-, body⟩, arg⟩ := holds
      exact C.subst n body arg
  | floatApp erased name value body arg =>
      simp only [app, dup] at holds
      obtain ⟨⟨value, body⟩, arg⟩ := holds
      exact C.dup.2 ⟨value, C.app.2 ⟨body, C.shift_one 0 arg⟩⟩
  | unpair erased erased' type fst snd self motive fstName sndName body =>
      simp only [split, pair] at holds
      obtain ⟨⟨-, fst, snd⟩, -, body⟩ := holds
      -- The second component stands under the binder of the first until that one is put in.
      have first := C.subst (n + 1) body (C.shift_one 0 snd)
      exact C.subst n first fst
  | floatSplit erased name value inner self motive fstName sndName body =>
      simp only [split, dup] at holds
      obtain ⟨⟨value, inner⟩, motive, body⟩ := holds
      exact C.dup.2 ⟨value, C.split.2 ⟨inner, C.shift_one 1 motive, C.shift_one 2 body⟩⟩
  | unbox name value body =>
      simp only [dup, box] at holds
      exact C.subst n holds.2 holds.1
  | floatDup name outer value inner body =>
      simp only [dup] at holds
      obtain ⟨⟨value, inner⟩, body⟩ := holds
      exact C.dup.2 ⟨value, C.dup.2 ⟨inner, C.shift_one 1 body⟩⟩
  | select type label ctrType args self motive branches branch found =>
      simp only [caseOf, apply] at holds
      obtain ⟨-, ⟨-, args⟩, -, branches⟩ := holds
      refine C.apply.2 ⟨branches branch ?_, args⟩
      exact List.mem_map_of_mem (Entries.mem_of_find? found)
  | floatCase type name value inner self motive branches =>
      simp only [caseOf, dup] at holds
      obtain ⟨type, ⟨value, inner⟩, motive, branches⟩ := holds
      refine C.dup.2 ⟨value, C.caseOf.2 ⟨C.shift_one 0 type, inner, C.shift_one 1 motive, ?_⟩⟩
      rw [Entries.terms_map, List.forall_mem_map]
      exact fun branch mem => C.shift_one 0 (branches branch mem)

/-- A condition is kept if it is kept in each part. -/
theorem parted {R : Term → Term → Prop} (parted : Parted R t u)
    (keeps : ∀ part ∈ t.parts, ∀ p, R part.2 p → C.holds (n + part.1) part.2 →
      C.holds (n + part.1) p) (holds : C.holds n t) : C.holds n u := by
  have leaf : u.isLeaf = t.isLeaf := by rw [parted.eq_withParts, Term.isLeaf_withParts]
  cases compound : t.isLeaf with
  | true =>
      -- A leaf has no parts, so it is related to itself alone.
      have none : t.parts = [] := by
        cases t with
        | var | ref => rfl
        | _ => cases compound
      rwa [(Parted.leaf_iff none).1 parted]
  | false =>
      rw [C.parts n compound] at holds
      rw [C.parts n (leaf.trans compound)]
      have inside :=
        (List.forall₂_and_left t.parts u.parts).2 ⟨fun _ mem => mem, parted.forall_parts⟩
      refine forall_mem_of_forall₂ inside holds fun part part' related holds => ?_
      obtain ⟨mem, binders, related⟩ := related
      rw [← binders]
      exact keeps part mem _ related holds

/-- One step, anywhere in the term, keeps a condition. -/
theorem step (step : Step ar env t u) (holds : C.holds n t) : C.holds n u := by
  induction t using Term.byParts generalizing n u with
  | step t ih =>
      rcases step.root_or_parts with ⟨c, found, rfl⟩ | parted
      · exact C.contract (rule_of_contract? found) holds
      · refine C.parted parted (fun part mem p step holds => ?_) holds
        cases step with
        | refl => exact holds
        | single step => exact ih part mem step holds

/-- Any number of steps keeps a condition. -/
theorem steps (steps : Steps ar env t u) (holds : C.holds n t) : C.holds n u := by
  induction steps with
  | refl => exact holds
  | tail _ step ih => exact C.step step ih

/-- A reduction keeps a condition, whether it gets to the end or is stopped. -/
theorem reduce {m m' : Meter} (reduced : reduce ar env t m = (u, m')) (holds : C.holds n t) :
    C.holds n u := by
  have each := (reduce_iff.1 reduced).steps
  rw [List.forall₂_cons] at each
  exact C.steps each.1 holds

/-- The same rules apply in both environments. -/
theorem contract?_eq (holds : C.holds n t) : t.contract? ar env' = t.contract? ar env := by
  have transfer : ∀ c, t.contract? ar env' = some c ↔ t.contract? ar env = some c := by
    intro c
    rw [contract?_iff, contract?_iff]
    constructor
    · intro rule
      refine rule.transfer fun name isRef d found => ?_
      subst isRef
      rwa [← C.agree n holds]
    · intro rule
      refine rule.transfer fun name isRef d found => ?_
      subst isRef
      rwa [C.agree n holds]
  exact Option.ext transfer

/-- The jobs of a term of which the condition holds. -/
theorem jobs (holds : C.holds n t) :
    (∀ job ∈ t.early, ∃ n, C.holds n job.2) ∧ ∀ job ∈ t.late, ∃ n, C.holds n job.2 := by
  refine Term.forall_jobs (fun u => ∃ n, C.holds n u) fun part mem => ⟨n + part.1, ?_⟩
  refine (C.parts n ?_).1 holds part mem
  cases t with
  | var | ref => cases mem
  | _ => rfl

/-- A run in the one environment is a run in the other. -/
theorem run {jobs : List (Bool × Term)} {m m' : Meter} {us : List Term}
    (run : Run ar env jobs m us m') (holds : ∀ job ∈ jobs, ∃ n, C.holds n job.2) :
    Run ar env' jobs m us m' := by
  -- A rule is looked for once the early jobs have run. By then the term still meets the condition.
  have ready : ∀ {n : Nat} {t : Term} {m m₁ : Meter} {ps : List Term}, C.holds n t →
      Run ar env t.early m ps m₁ → C.holds n (t.withParts (ps ++ t.late.map Prod.snd)) := by
    intro n t m m₁ ps holds early
    refine C.steps (steps_of_jobs early.steps ?_) holds
    rw [List.forall₂_map_right_iff, List.forall₂_same]
    exact fun _ _ => .refl
  induction run with
  | nil m => exact .nil m
  | cons job jobs m u m₁ us m₂ _ _ ih ih' =>
      rw [List.forall_mem_cons] at holds
      exact .cons _ _ _ _ _ _ _ (ih (List.forall_mem_singleton.2 holds.1)) (ih' holds.2)
  | need t m u m₁ _ ih => exact .need _ _ _ _ (ih (by simpa using holds))
  | stay t m ps m₁ qs m₂ early none late ih ih' =>
      obtain ⟨n, here⟩ := holds _ List.mem_cons_self
      have same := C.contract?_eq (ready here early)
      exact .stay _ _ _ _ _ _ (ih (C.jobs here).1) (same.trans none) (ih' (C.jobs here).2)
  | refused t m ps m₁ c m₂ qs m₃ early some fire late ih ih' =>
      obtain ⟨n, here⟩ := holds _ List.mem_cons_self
      have same := C.contract?_eq (ready here early)
      exact .refused _ _ _ _ c _ _ _ (ih (C.jobs here).1) (same.trans some) fire
        (ih' (C.jobs here).2)
  | fired t m ps m₁ c m₂ u m₃ early some fire _ ih ih' =>
      obtain ⟨n, here⟩ := holds _ List.mem_cons_self
      have redex := ready here early
      have same := C.contract?_eq redex
      refine .fired _ _ _ _ c _ _ _ (ih (C.jobs here).1) (same.trans some) fire (ih' ?_)
      have contractum := C.contract (rule_of_contract? some) redex
      rw [List.forall_mem_singleton]
      cases c with
      | plain => exact ⟨n, contractum⟩
      | under => exact ⟨n + 1, (C.dup.1 contractum).2⟩

/-- Reduction does the same in both environments. -/
theorem reduce_eq (holds : C.holds n t) (m : Meter) :
    BoxCalculus.reduce ar env' t m = BoxCalculus.reduce ar env t m := by
  have run : Run ar env [(true, t)] m [(BoxCalculus.reduce ar env t m).1]
    (BoxCalculus.reduce ar env t m).2 := reduce_iff.1 rfl
  exact reduce_iff.2 (C.run run (List.forall_mem_singleton.2 ⟨n, holds⟩))

end Condition

end BoxCalculus
