import BoxCalculus.Proofs.Settled
import BoxCalculus.Proofs.StepCounts
import BoxCalculus.Proofs.UniqueNormalForms

/-!
# Normal forms stay as they are

`Redex env t` lists the forms that the rules take apart: an elimination that meets what it eliminates,
an elimination that meets a duplication, and a reference with a definition. They are exactly the terms
that a rule applies to (`contract?_eq_none_iff`), whatever the arithmetic of indices is.

A reduction that comes to an end leaves no redex at any position, and reducing what it leaves takes no
step and gives back the same tree (`normal_form_stable`).
-/

namespace BoxCalculus

/-- The term is one that a rule takes apart at its root. -/
inductive Redex (env : Env) : Term → Prop where
  | ref (name) : (env name).isSome = true → Redex env (.ref name)
  | appLam (erased erased' name dom body arg) :
      Redex env (.app erased (.lam erased' name dom body) arg)
  | appDup (erased name value body arg) : Redex env (.app erased (.dup name value body) arg)
  | splitPair (erased erased' type fst snd self motive fstName sndName body) :
      Redex env (.split erased (.pair erased' type fst snd) self motive fstName sndName body)
  | splitDup (erased name value inner self motive fstName sndName body) :
      Redex env (.split erased (.dup name value inner) self motive fstName sndName body)
  | dupBox (name value body) : Redex env (.dup name (.box value) body)
  | dupDup (name outer value inner body) : Redex env (.dup name (.dup outer value inner) body)
  | caseCtr (type label ctrType args self motive) (branches : Entries) :
      (branches.find? label).isSome = true →
      Redex env (.caseOf type ((Term.ctr label ctrType).apply args) self motive branches)
  | caseDup (type name value inner self motive branches) :
      Redex env (.caseOf type (.dup name value inner) self motive branches)

variable {ar : Arith} {env : Env} {t u : Term}

/-- A rule applies to a redex. -/
theorem Redex.rule (redex : Redex env t) (ar : Arith) : ∃ c, Rule ar env t c := by
  cases redex with
  | ref name defined =>
      obtain ⟨d, found⟩ := Option.isSome_iff_exists.1 defined
      exact ⟨_, .unfold name d found⟩
  | appLam => exact ⟨_, .beta ..⟩
  | appDup => exact ⟨_, .floatApp ..⟩
  | splitPair => exact ⟨_, .unpair ..⟩
  | splitDup => exact ⟨_, .floatSplit ..⟩
  | dupBox => exact ⟨_, .unbox ..⟩
  | dupDup => exact ⟨_, .floatDup ..⟩
  | caseCtr type label ctrType args self motive branches covered =>
      obtain ⟨branch, found⟩ := Option.isSome_iff_exists.1 covered
      exact ⟨_, .select _ _ _ _ _ _ _ branch found⟩
  | caseDup => exact ⟨_, .floatCase ..⟩

/-- Rules apply to nothing but redexes. -/
theorem Rule.redex {c : Contractum} (rule : Rule ar env t c) : Redex env t := by
  cases rule with
  | unfold name d found => exact .ref name (by rw [found]; rfl)
  | beta => exact .appLam ..
  | floatApp => exact .appDup ..
  | unpair => exact .splitPair ..
  | floatSplit => exact .splitDup ..
  | unbox => exact .dupBox ..
  | floatDup => exact .dupDup ..
  | select type label ctrType args self motive branches branch found =>
      exact .caseCtr _ _ _ _ _ _ _ (by rw [found]; rfl)
  | floatCase => exact .caseDup ..

/-- No rule applies to a term exactly if it is no redex. -/
theorem contract?_eq_none_iff : t.contract? ar env = none ↔ ¬ Redex env t := by
  constructor
  · intro none redex
    obtain ⟨c, rule⟩ := redex.rule ar
    rw [rule.contract?] at none
    cases none
  · intro irreducible
    rw [Option.eq_none_iff_forall_ne_some]
    intro c found
    exact irreducible (rule_of_contract? found).redex

/-- A term is normal if there is no redex in it. -/
theorem normal_iff_everywhere : Normal ar env t ↔ t.Everywhere fun u => ¬ Redex env u := by
  induction t using Term.byParts with
  | step t ih =>
      rw [normal_iff, contract?_eq_none_iff]
      constructor
      · rintro ⟨here, parts⟩
        exact .intro here fun part mem => (ih part mem).1 (parts part mem)
      · intro all
        exact ⟨all.here, fun part mem => (ih part mem).2 (all.part mem)⟩

/-- The term is a normal form for the kernel: there is no redex in it, and reducing it gives it back
without taking a step. -/
structure Kernel.NormalForm (k : Kernel) (t : Term) : Prop where
  irreducible : t.Everywhere fun u => ¬ Redex k.env u
  idle : ∀ m, reduce k.arith k.env t m = (t, m)
  fixed : k.reduce? t = some t

/-- A run that has not stopped leaves a normal form. -/
theorem Run.normalForm {k : Kernel} {m m' : Meter} (run : Run k.arith k.env [(true, t)] m [u] m')
    (going : m'.stopped = none) : k.NormalForm u := by
  -- What a run leaves is settled, and settled terms are left alone on every meter.
  have settled : ∀ job ∈ [(true, u)], Settled k.arith k.env job := run.settled going
  have idle (m : Meter) : Run k.arith k.env [(true, u)] m [u] m := Settled.run settled m
  refine ⟨?_, fun m => reduce_iff.2 (idle m), Kernel.reduce?_iff.2 ⟨_, idle _, rfl⟩⟩
  exact normal_iff_everywhere.1 (settled _ List.mem_cons_self).1

/-- Normalizing a sound term meets a gap only in a definition. -/
theorem Kernel.normalize_gap {k : Kernel} {canceled : Bool} (sound : t.sound = true)
    (gap : (k.normalize canceled t).2 = some (.stopped .gap)) : ¬ k.env.Sound := by
  intro defs
  generalize reduced : reduce k.arith k.env t (Meter.start k.fuel canceled) = outcome
  obtain ⟨nf, m⟩ := outcome
  obtain ⟨there, intact⟩ := Term.sound_iff.1 sound
  -- Nothing is missing in the term and in the definitions, so nothing is in the result.
  obtain ⟨intact', unmet⟩ := (reduce_iff.1 reduced).no_gap defs
    (List.forall_mem_singleton.2 ⟨intact, fun _ => there⟩)
  obtain ⟨stop, stopped, eq⟩ | ⟨-, -, eq⟩ | ⟨-, stuck, found, ⟨lacks, eq⟩ | ⟨-, eq⟩⟩ :=
    Kernel.normalize_cases reduced
  all_goals
    rw [eq] at gap
    cases gap
  · cases unmet stopped
  · have nf_intact : nf.Intact := (List.forall₂_cons.1 intact').1.1
    rw [nf_intact.lacksScrutinee found] at lacks
    cases lacks

/-- What a reduction of a sound term returns is a normal form, and so is what normalizing returns
unless it has run out of fuel or has been canceled. (Normalizing meets a gap only in a definition.) -/
theorem normal_form_stable (k : Kernel) (canceled : Bool) {t : Term} (sound : t.sound = true) :
    (∀ r, k.reduce? t = some r → k.NormalForm r) ∧
    ∀ r failure, k.normalize canceled t = (r, failure) →
      failure ≠ some (.stopped .outOfFuel) → failure ≠ some (.stopped .canceled) →
      k.NormalForm r ∨ failure = some (.stopped .gap) ∧ ¬ k.env.Sound := by
  constructor
  · intro r returns
    obtain ⟨m, run, going⟩ := Kernel.reduce?_iff.1 returns
    exact run.normalForm going
  · intro r failure outcome fueled wanted
    generalize reduced : reduce k.arith k.env t (Meter.start k.fuel canceled) = pair
    obtain ⟨nf, m⟩ := pair
    have run := reduce_iff.1 reduced
    obtain ⟨stop, -, eq⟩ | ⟨going, -, eq⟩ | ⟨going, stuck, -, ⟨-, eq⟩ | ⟨-, eq⟩⟩ :=
      Kernel.normalize_cases reduced
    all_goals
      rw [outcome] at eq
      cases eq
    · -- The run has been stopped, and neither for its fuel nor from outside.
      have gap : stop = .gap := by
        cases stop with
        | gap => rfl
        | outOfFuel => exact absurd rfl fueled
        | canceled => exact absurd rfl wanted
      subst gap
      exact .inr ⟨rfl, Kernel.normalize_gap sound (by rw [outcome])⟩
    all_goals exact .inl (run.normalForm going)

/-- In `(dup x = y in id) Type` the reference is unfolded, the duplication moves outward and the function
is applied below it. The duplication of `y` that is left is a normal form. -/
theorem normal_form_stable_floating :
    identityKernel.NormalForm (.dup "x" (.var 0) .univ) := by
  have outcome : identityKernel.normalize false
      (.app false (.dup "x" (.var 0) (.ref "id")) .univ) = (.dup "x" (.var 0) .univ, none) := by rfl
  obtain ⟨-, normalizing⟩ := normal_form_stable identityKernel false
    (t := .app false (.dup "x" (.var 0) (.ref "id")) .univ) (by rfl)
  obtain stable | ⟨gap, -⟩ := normalizing _ _ outcome (by simp) (by simp)
  · exact stable
  · cases gap

end BoxCalculus
