import BoxCalculus.Proofs.Limits

/-!
# Reducing what has been reduced

A term is settled if no rule applies in it and no run meets a gap in it. A run that has not stopped
leaves settled terms (`Run.settled`), and reducing settled terms takes no step and changes nothing
(`Run.eq_of_settled`). A run that has stopped changes nothing either (`Run.eq_of_stopped`).
-/

namespace BoxCalculus

variable {ar : Arith} {env : Env} {jobs : List (Bool × Term)} {m m' : Meter} {us : List Term}

/-- There is one way to run some jobs. -/
theorem Run.unique {vs : List Term} {m'' : Meter} (run : Run ar env jobs m us m')
    (other : Run ar env jobs m vs m'') : us = vs ∧ m' = m'' := by
  have outcome := run.reduceJobs_eq (Nat.le_refl _)
  rw [other.reduceJobs_eq (Nat.le_refl _)] at outcome
  cases outcome
  exact ⟨rfl, rfl⟩

/-- The first job is run before the others. -/
theorem Run.of_cons {job : Bool × Term} (run : Run ar env (job :: jobs) m us m') :
    ∃ v vs m₁, us = v :: vs ∧ Run ar env [job] m [v] m₁ ∧ Run ar env jobs m₁ vs m' := by
  obtain ⟨ws, m₁, first⟩ := run_total ar env [job] m
  obtain ⟨v, rfl⟩ := List.length_eq_one_iff.1 first.length_eq
  obtain ⟨vs, m₂, rest⟩ := run_total ar env jobs m₁
  obtain ⟨same, rfl⟩ := run.unique (.cons _ _ _ _ _ _ _ first rest)
  exact ⟨v, vs, m₁, same, first, rest⟩

/-- A run of one term that has not stopped: first come the early parts, and then either the late ones,
if no rule applies, or what the rule gives. -/
theorem Run.of_term {t v : Term} (run : Run ar env [(false, t)] m [v] m') (going : m'.stopped = none) :
    ∃ ps m₁, Run ar env t.early m ps m₁ ∧ m₁.stopped = none ∧
      (((t.withParts (ps ++ t.late.map Prod.snd)).contract? ar env = none ∧
        ∃ qs, Run ar env t.late m₁ qs m' ∧ v = t.withParts (ps ++ qs)) ∨
      ∃ c m₂ u, (t.withParts (ps ++ t.late.map Prod.snd)).contract? ar env = some c ∧
        m₁.fire = (true, m₂) ∧ Run ar env [(true, c.inner)] m₂ [u] m' ∧ v = c.around u) := by
  obtain ⟨ps, m₁, early⟩ := run_total ar env t.early m
  refine ⟨ps, m₁, early, ?_⟩
  cases rule : (t.withParts (ps ++ t.late.map Prod.snd)).contract? ar env with
  | none =>
      obtain ⟨qs, m₂, late⟩ := run_total ar env t.late m₁
      obtain ⟨same, rfl⟩ := run.unique (.stay _ _ _ _ _ _ early rule late)
      exact ⟨late.running going, .inl ⟨rfl, qs, late, List.singleton_inj.1 same⟩⟩
  | some c =>
      match fire : m₁.fire with
      | (false, m₂) =>
          obtain ⟨qs, m₃, late⟩ := run_total ar env t.late m₂
          obtain ⟨-, rfl⟩ := run.unique (.refused _ _ _ _ _ _ _ _ early rule fire late)
          have stopped := Meter.stopped_of_refused fire
          rw [late.running going] at stopped
          cases stopped
      | (true, m₂) =>
          obtain ⟨ws, m₃, next⟩ := run_total ar env [(true, c.inner)] m₂
          obtain ⟨u, rfl⟩ := List.length_eq_one_iff.1 next.length_eq
          obtain ⟨same, rfl⟩ := run.unique (.fired _ _ _ _ _ _ _ _ early rule fire next)
          exact ⟨Meter.running_of_granted fire,
            .inr ⟨c, m₂, u, rfl, rfl, next, List.singleton_inj.1 same⟩⟩

/-- A term with its jobs put back in their place is the term. -/
theorem Term.withParts_jobs (t : Term) :
    t.withParts (t.early.map Prod.snd ++ t.late.map Prod.snd) = t := by
  rw [t.map_early_late, Term.withParts_parts]

/-- A run that has stopped puts everything back in its place. -/
theorem Run.eq_of_stopped (run : Run ar env jobs m us m') (stopped : m.stopped.isSome = true) :
    us = jobs.map Prod.snd := by
  have stays : ∀ {a b : Meter} {js : List (Bool × Term)} {vs : List Term}, Run ar env js a vs b →
      a.stopped.isSome = true → b.stopped.isSome = true := by
    intro a b js vs run stopped
    rcases (run.of_stopped stopped).2 with same | gap
    · rw [same, stopped]
    · rw [gap]; rfl
  induction run with
  | nil => rfl
  | cons job jobs m u m₁ us m₂ first _ ih ih' =>
      cases ih stopped
      rw [ih' (stays first stopped)]
      rfl
  | need t m u m₁ _ ih =>
      refine ih ?_
      unfold Meter.need
      split
      · rfl
      · exact stopped
  | stay t m ps m₁ qs m₂ early _ _ ih ih' =>
      rw [ih stopped, ih' (stays early stopped), t.withParts_jobs]
      rfl
  | refused t m ps m₁ c m₂ qs m₃ _ _ fire _ ih ih' =>
      rw [ih stopped, ih' (Meter.stopped_of_refused fire), t.withParts_jobs]
      rfl
  | fired t m ps m₁ c m₂ u m₃ early _ fire _ _ _ =>
      have stopped₁ := stays early stopped
      rw [Meter.running_of_granted fire] at stopped₁
      cases stopped₁

/-- No rule applies in the term, and no run meets a gap in it. -/
def Settled (ar : Arith) (env : Env) (job : Bool × Term) : Prop :=
  Normal ar env job.2 ∧ ¬ Gapped job

/-- The parts of a settled term are settled. -/
theorem Settled.parts {needed : Bool} {t : Term} (settled : Settled ar env (needed, t)) :
    ∀ job ∈ t.early ++ t.late, Settled ar env job := by
  intro job mem
  refine ⟨?_, fun gapped => settled.2 (.inside _ _ job mem gapped)⟩
  rw [Term.early_append_late] at mem
  obtain ⟨part, inside, rfl⟩ := List.mem_map.1 mem
  exact (normal_iff.1 settled.1).2 part inside

/-- Reducing settled terms takes no step and changes nothing. -/
theorem Run.eq_of_settled (run : Run ar env jobs m us m') (settled : ∀ job ∈ jobs, Settled ar env job) :
    us = jobs.map Prod.snd ∧ m' = m := by
  induction run with
  | nil m => exact ⟨rfl, rfl⟩
  | cons job jobs m u m₁ us m₂ _ _ ih ih' =>
      rw [List.forall_mem_cons] at settled
      obtain ⟨first, rfl⟩ := ih (by simpa using settled.1)
      obtain ⟨rest, rfl⟩ := ih' settled.2
      cases first
      exact ⟨by rw [rest]; rfl, rfl⟩
  | need t m u m₁ _ ih =>
      have here := settled _ List.mem_cons_self
      have there : t.isHole = false := by
        cases hole : t.isHole with
        | false => rfl
        | true =>
            rw [t.isHole_iff.1 hole] at here
            exact absurd Gapped.here here.2
      rw [Meter.need, there] at ih
      exact ih (List.forall_mem_singleton.2 ⟨here.1, fun gapped => here.2 gapped.inner⟩)
  | stay t m ps m₁ qs m₂ _ _ _ ih ih' =>
      obtain ⟨early, late⟩ := List.forall_mem_append.1 (settled _ List.mem_cons_self).parts
      obtain ⟨rfl, rfl⟩ := ih early
      obtain ⟨rfl, rfl⟩ := ih' late
      exact ⟨by rw [t.withParts_jobs]; rfl, rfl⟩
  | refused t m ps m₁ c m₂ qs m₃ _ some _ _ ih _ =>
      have whole := settled _ List.mem_cons_self
      obtain ⟨rfl, -⟩ := ih (List.forall_mem_append.1 whole.parts).1
      rw [t.withParts_jobs, (normal_iff.1 whole.1).1] at some
      cases some
  | fired t m ps m₁ c m₂ u m₃ _ some _ _ ih _ =>
      have whole := settled _ List.mem_cons_self
      obtain ⟨rfl, -⟩ := ih (List.forall_mem_append.1 whole.parts).1
      rw [t.withParts_jobs, (normal_iff.1 whole.1).1] at some
      cases some

/-- Settled terms can be run on every meter. -/
theorem Settled.run (settled : ∀ job ∈ jobs, Settled ar env job) (m : Meter) :
    Run ar env jobs m (jobs.map Prod.snd) m := by
  obtain ⟨us, m', run⟩ := run_total ar env jobs m
  obtain ⟨rfl, rfl⟩ := run.eq_of_settled settled
  exact run

/-- The jobs with other terms. -/
def retarget (jobs : List (Bool × Term)) (us : List Term) : List (Bool × Term) :=
  (jobs.map Prod.fst).zip us

/-- Without jobs there is nothing to retarget. -/
@[simp] theorem retarget_nil (us : List Term) : retarget [] us = [] := rfl

/-- The first job gets the first term. -/
@[simp] theorem retarget_cons (job : Bool × Term) (jobs : List (Bool × Term)) (u : Term)
    (us : List Term) : retarget (job :: jobs) (u :: us) = (job.1, u) :: retarget jobs us := rfl

/-- Jobs that get their own terms stay as they are. -/
theorem retarget_self (jobs : List (Bool × Term)) : retarget jobs (jobs.map Prod.snd) = jobs := by
  induction jobs with
  | nil => rfl
  | cons job jobs ih => rw [List.map_cons, retarget_cons, ih]

/-- The terms of the jobs are those that they get. -/
theorem map_retarget (same : us.length = jobs.length) : (retarget jobs us).map Prod.snd = us :=
  List.map_snd_zip (by simp [same])

/-- The jobs of a term whose parts have been replaced. -/
theorem Term.jobs_withParts {t : Term} {ps qs : List Term} (early : ps.length = t.early.length)
    (late : qs.length = t.late.length) :
    (t.withParts (ps ++ qs)).early = retarget t.early ps ∧
      (t.withParts (ps ++ qs)).late = retarget t.late qs := by
  have same := Term.length_jobs early late
  have needs : (t.withParts (ps ++ qs)).needsParts = t.needsParts := by
    unfold Term.withParts
    split <;> rfl
  have last : (t.withParts (ps ++ qs)).late.length = t.late.length := by
    unfold Term.withParts
    split <;> rfl
  have whole := (t.withParts (ps ++ qs)).early_append_late
  have split : retarget t.early ps ++ retarget t.late qs =
      retarget (t.early ++ t.late) (ps ++ qs) := by
    rw [retarget, retarget, retarget, List.map_append, List.zip_append (by simp [early])]
  have flags : retarget (t.early ++ t.late) (ps ++ qs) =
      ((t.parts.map Prod.fst).zip (ps ++ qs)).map fun part => (t.needsParts, part.2) := by
    rw [Term.early_append_late, retarget]
    generalize ps ++ qs = us, t.parts = parts
    induction parts generalizing us with
    | nil => rfl
    | cons part parts ih =>
        cases us with
        | nil => rfl
        | cons u us => simpa using ih us
  rw [Term.parts_withParts same, needs, ← flags, ← split] at whole
  exact List.append_inj' whole (by simp [last, retarget, late])

/-- A run that meets no gap leaves no gap in the place of a term. -/
theorem Run.there (run : Run ar env jobs m us m') (unmet : m'.stopped ≠ some .gap) :
    List.Forall₂ (fun job u => job.2.isHole = false → u.isHole = false) jobs us := by
  induction run with
  | nil => exact .nil
  | cons job jobs m u m₁ us m₂ _ rest ih ih' =>
      exact .cons (by simpa using ih fun gap => unmet (rest.gap_of_gap gap)) (ih' unmet)
  | need t m u m₁ _ ih => simpa using ih unmet
  | stay t m ps m₁ qs m₂ _ _ _ _ _ => exact .cons (t.isHole_withParts _).trans .nil
  | refused t m ps m₁ c m₂ qs m₃ _ _ _ _ _ _ => exact .cons (t.isHole_withParts _).trans .nil
  | fired t m ps m₁ c m₂ u m₃ _ _ _ next _ ih' =>
      refine .cons (fun _ => ?_) .nil
      cases c with
      | plain inner =>
          have there : inner.isHole = false := by
            cases hole : inner.isHole with
            | false => rfl
            | true =>
                rw [inner.isHole_iff.1 hole] at next
                exact absurd (next.gap_of_gapped ⟨_, List.mem_cons_self, .here⟩) unmet
          have same : inner.isHole = false → u.isHole = false := by
            simpa [Contractum.inner] using ih' unmet
          exact same there
      | under => rfl

/-- A term that is there is found where it is needed. -/
theorem Run.needed {u v : Term} (run : Run ar env [(false, u)] m [v] m') (there : u.isHole = false) :
    Run ar env [(true, u)] m [v] m' :=
  .need _ _ _ _ (by simpa [Meter.need, there] using run)

/-- A term that is there can be run whether it is needed or not. -/
theorem Run.unneeded {u v : Term} (run : Run ar env [(true, u)] m [v] m') (there : u.isHole = false) :
    Run ar env [(false, u)] m [v] m' := by
  obtain ⟨ws, m'', other⟩ := run_total ar env [(false, u)] m
  obtain ⟨w, rfl⟩ := List.length_eq_one_iff.1 other.length_eq
  obtain ⟨same, rfl⟩ := run.unique (other.needed there)
  rwa [same]

/-- A term that has been needed and found is there. -/
theorem Run.there_before {t u : Term} (run : Run ar env [(true, t)] m [u] m')
    (unmet : m'.stopped ≠ some .gap) : t.isHole = false := by
  cases hole : t.isHole with
  | false => rfl
  | true =>
      rw [t.isHole_iff.1 hole] at run
      exact absurd (run.gap_of_gapped ⟨_, List.mem_cons_self, .here⟩) unmet

/-- A term that has been needed and found has not become a gap. -/
theorem Run.there_of_needed {t u : Term} (run : Run ar env [(true, t)] m [u] m')
    (unmet : m'.stopped ≠ some .gap) : u.isHole = false := by
  have keeps : t.isHole = false → u.isHole = false := by simpa using run.there unmet
  exact keeps (run.there_before unmet)

/-- The term that is moved around by a rule has been reduced before. -/
theorem Run.settled_under {t value body : Term} {ps : List Term} {name : String}
    (early : Run ar env t.early m ps m') (settled : ∀ job ∈ retarget t.early ps, Settled ar env job)
    (found : (t.withParts (ps ++ t.late.map Prod.snd)).contract? ar env =
      some (.under name value body)) :
    Settled ar env (true, value) ∧
      ∀ inner, (Term.dup name value inner).contract? ar env = none := by
  obtain ⟨inner, mem⟩ := contract?_under early.length_eq found
  rw [← map_retarget early.length_eq] at mem
  obtain ⟨⟨needed, _⟩, mem, rfl⟩ := List.mem_map.1 mem
  have whole := settled _ mem
  exact ⟨whole.parts _ (.head _), fun inner => contract?_dup_none (normal_iff.1 whole.1).1⟩

/-- A run that has not stopped leaves settled terms. -/
theorem Run.settled (run : Run ar env jobs m us m') (going : m'.stopped = none) :
    ∀ job ∈ retarget jobs us, Settled ar env job := by
  have inner : ∀ {needed : Bool} {u : Term}, Settled ar env (needed, u) → Settled ar env (false, u) :=
    fun settled => ⟨settled.1, fun gapped => settled.2 gapped.inner⟩
  induction run with
  | nil => simp
  | cons job jobs m u m₁ us m₂ _ rest ih ih' =>
      rw [retarget_cons, List.forall_mem_cons]
      exact ⟨by simpa using ih (rest.running going), ih' going⟩
  | need t m u m₁ run ih =>
      have settled : Settled ar env (false, u) := by simpa using ih going
      have there : t.isHole = false := by
        cases hole : t.isHole with
        | false => rfl
        | true =>
            have running := run.running going
            simp [Meter.need, hole] at running
      have there' : t.isHole = false → u.isHole = false := by
        simpa using run.there (by simp [going])
      rw [retarget_cons, retarget_nil, List.forall_mem_singleton]
      refine ⟨settled.1, fun gapped => ?_⟩
      cases gapped with
      | here => cases there' there
      | inside _ _ job mem gapped => exact settled.2 (.inside _ _ job mem gapped)
  | stay t m ps m₁ qs m₂ early none late ih ih' =>
      obtain ⟨first, last⟩ := Term.jobs_withParts early.length_eq late.length_eq
      rw [retarget_cons, retarget_nil, List.forall_mem_singleton]
      refine ⟨(Run.stay t m ps m₁ qs m₂ early none late).normal going _ (.head _), fun gapped => ?_⟩
      cases gapped with
      | inside _ _ job mem gapped =>
          rw [first, last, List.mem_append] at mem
          rcases mem with mem | mem
          · exact (ih (late.running going) job mem).2 gapped
          · exact (ih' going job mem).2 gapped
  | refused t m ps m₁ c m₂ qs m₃ _ _ fire late _ _ =>
      have stopped := Meter.stopped_of_refused fire
      rw [late.running going] at stopped
      cases stopped
  | fired t m ps m₁ c m₂ u m₃ early some fire run ih ih' =>
      have after : Settled ar env (true, u) := by simpa using ih' going
      rw [retarget_cons, retarget_nil, List.forall_mem_singleton]
      cases c with
      | plain => exact inner after
      | under name value body =>
          obtain ⟨value_settled, none⟩ :=
            early.settled_under (ih (Meter.running_of_granted fire)) some
          refine ⟨normal_iff.2 ⟨none u, ?_⟩, fun gapped => ?_⟩
          · exact List.forall_mem_cons.2 ⟨value_settled.1, List.forall_mem_singleton.2 after.1⟩
          · cases gapped with
            | inside _ _ job mem gapped =>
                rcases List.mem_cons.1 mem with rfl | mem
                · exact value_settled.2 gapped
                · obtain rfl := List.mem_singleton.1 mem
                  exact after.2 gapped

end BoxCalculus
