import BoxCalculus.Proofs.Rewriting
import BoxCalculus.Reduction.Normalization

/-!
# Runs of the reducer

`Run ar env jobs m us m'` says that reducing the terms of `jobs` one after the other, on the meter
`m`, gives the terms `us` and leaves the meter `m'`. It is what `reduce` computes (`reduce_iff`), with
every form of terms treated alike: first come the parts that are reduced before a rule is looked for,
then the rule, and then either what the rule gives or the parts that are reduced only if it does not
fire.

Every run takes only steps of the rewriting relation (`Run.steps`), and a run that has not stopped has
left no redex (`Run.normal`).
-/

namespace BoxCalculus

open Relation (ReflTransGen)

/-- The parts of a term that are reduced before its rule is looked for. The mark says whether a
term has to be there. -/
def Term.early : Term → List (Bool × Term)
  | .app _ fn arg => [(true, fn), (true, arg)]
  | .dup _ value _ => [(true, value)]
  | t => t.parts.map fun part => (false, part.2)

/-- The parts of a term that are reduced only if no rule fires. -/
def Term.late : Term → List (Bool × Term)
  | .dup _ _ body => [(true, body)]
  | _ => []

/-- The parts of an application and of a duplication have to be there. -/
def Term.needsParts : Term → Bool
  | .app _ _ _ | .dup _ _ _ => true
  | _ => false

/-- The jobs of a term are its parts. -/
theorem Term.early_append_late (t : Term) :
    t.early ++ t.late = t.parts.map fun part => (t.needsParts, part.2) := by
  cases t <;> simp [Term.early, Term.late, Term.parts, Term.needsParts]

/-- What holds of the parts of a term holds of its jobs. -/
theorem Term.forall_jobs (P : Term → Prop) {t : Term} (parts : ∀ part ∈ t.parts, P part.2) :
    (∀ job ∈ t.early, P job.2) ∧ ∀ job ∈ t.late, P job.2 := by
  rw [← List.forall_mem_append, Term.early_append_late, List.forall_mem_map]
  exact parts

namespace Contractum

/-- The term that is reduced next. -/
def inner : Contractum → Term
  | plain t => t
  | under _ _ body => body

/-- What becomes of the term that is reduced next. -/
def around : Contractum → Term → Term
  | plain _, t => t
  | under name value _, t => .dup name value t

/-- What is left to reduce, with what stands around it, is the whole contractum. -/
theorem around_inner (c : Contractum) : c.around c.inner = c.term := by
  cases c <;> rfl

/-- Going on with a contractum is reducing what is left of it. -/
theorem resume_eq (again : Term → Meter → Term × Meter) (c : Contractum) (m : Meter) :
    c.resume again m = (c.around (again c.inner m).1, (again c.inner m).2) := by
  cases c <;> rfl

end Contractum

/-- `Run ar env jobs m us m'` says that reducing the terms of `jobs` in turn, starting with the meter
`m`, gives the terms `us` and ends with the meter `m'`. -/
inductive Run (ar : Arith) (env : Env) :
    List (Bool × Term) → Meter → List Term → Meter → Prop where
  | nil (m) : Run ar env [] m [] m
  | cons (job jobs m u m₁ us m₂) :
      Run ar env [job] m [u] m₁ → Run ar env jobs m₁ us m₂ →
      Run ar env (job :: jobs) m (u :: us) m₂
  | need (t m u m₁) :
      Run ar env [(false, t)] (m.need t) [u] m₁ → Run ar env [(true, t)] m [u] m₁
  | stay (t m ps m₁ qs m₂) :
      Run ar env t.early m ps m₁ →
      (t.withParts (ps ++ t.late.map Prod.snd)).contract? ar env = none →
      Run ar env t.late m₁ qs m₂ →
      Run ar env [(false, t)] m [t.withParts (ps ++ qs)] m₂
  | refused (t m ps m₁ c m₂ qs m₃) :
      Run ar env t.early m ps m₁ →
      (t.withParts (ps ++ t.late.map Prod.snd)).contract? ar env = some c →
      m₁.fire = (false, m₂) → Run ar env t.late m₂ qs m₃ →
      Run ar env [(false, t)] m [t.withParts (ps ++ qs)] m₃
  | fired (t m ps m₁ c m₂ u m₃) :
      Run ar env t.early m ps m₁ →
      (t.withParts (ps ++ t.late.map Prod.snd)).contract? ar env = some c →
      m₁.fire = (true, m₂) → Run ar env [(true, c.inner)] m₂ [u] m₃ →
      Run ar env [(false, t)] m [c.around u] m₃

section Function

variable (ar : Arith) (env : Env) (again : Term → Meter → Term × Meter)

/-- Reduce the terms of some jobs in turn. -/
def reduceJobs : List (Bool × Term) → Meter → List Term × Meter
  | [], m => ([], m)
  | (needed, t) :: jobs, m =>
      let (u, m) := t.reduceWith ar env again (if needed then m.need t else m)
      let (us, m) := reduceJobs jobs m
      (u :: us, m)

/-- Put the reduced parts of a term together, after reducing those that have been left. -/
def Term.rebuild (t : Term) (ps : List Term) (m : Meter) : Term × Meter :=
  let (qs, m) := reduceJobs ar env again t.late m
  (t.withParts (ps ++ qs), m)

/-- Entries are reduced as the jobs of their terms. -/
theorem Entries.reduceWith_eq (m : Meter) : ∀ entries : Entries,
    entries.reduceWith ar env again m =
      let (us, m) := reduceJobs ar env again (entries.terms.map fun t => (false, t)) m
      (entries.withTerms us, m)
  | .nil => rfl
  | .cons label term rest => by
      simp only [Entries.reduceWith, Entries.terms_cons, List.map_cons, reduceJobs,
        Entries.reduceWith_eq _ rest]
      rfl

/-- Jobs are done one list after the other. -/
theorem reduceJobs_append (m : Meter) (jobs more : List (Bool × Term)) :
    reduceJobs ar env again (jobs ++ more) m =
      let (us, m) := reduceJobs ar env again jobs m
      let (vs, m) := reduceJobs ar env again more m
      (us ++ vs, m) := by
  induction jobs generalizing m with
  | nil => rfl
  | cons job jobs ih => simp only [List.cons_append, reduceJobs, ih]

/-- Each job gives one term. -/
theorem length_reduceJobs (m : Meter) (jobs : List (Bool × Term)) :
    (reduceJobs ar env again jobs m).1.length = jobs.length := by
  induction jobs generalizing m with
  | nil => rfl
  | cons job jobs ih => simp only [reduceJobs, List.length_cons, ih]

/-- Reducing a term, without regard to its form. -/
theorem Term.reduceWith_eq (t : Term) (m : Meter) :
    t.reduceWith ar env again m =
      let (ps, m) := reduceJobs ar env again t.early m
      match (t.withParts (ps ++ t.late.map Prod.snd)).contract? ar env with
      | none => t.rebuild ar env again ps m
      | some c =>
          match m.fire with
          | (true, m) => c.resume again m
          | (false, m) => t.rebuild ar env again ps m := by
  cases t with
  | data name type ctrs =>
      have early : (Term.data name type ctrs).early =
          ctrs.terms.map (fun t => (false, t)) ++ [(false, type)] := by
        simp [Term.early, Term.parts, Entries.terms]
      simp only [Term.reduceWith, early, reduceJobs_append, reduceJobs, Entries.reduceWith_eq,
        Term.withParts_data, Term.contract?, Term.rebuild, Term.late, List.map_nil, List.append_nil,
        List.getLastD_concat]
      rw [Entries.withTerms_append]
      · rfl
      · rw [length_reduceJobs]
        simp
  | caseOf type value name motive branches =>
      have early : (Term.caseOf type value name motive branches).early =
          (false, type) :: (false, value) :: (false, motive) ::
            branches.terms.map fun t => (false, t) := by
        simp [Term.early, Term.parts, Entries.terms]
      simp only [Term.reduceWith, early, reduceJobs, Entries.reduceWith_eq,
        Term.withParts_caseOf, Term.rebuild, Term.late, List.map_nil, List.append_nil,
        Bool.false_eq_true, if_false]
      rfl
  | _ => rfl

end Function

/-- What comes after the last round: nothing, and before it one round less. -/
def reduceAfter (ar : Arith) (env : Env) : (rounds : Nat) → Term → Meter → Term × Meter
  | 0 => fun t m => (t, m)
  | rounds + 1 => reduceUpTo ar env rounds

/-- Reducing a term asks for it, and then goes through its form. -/
theorem reduceUpTo_eq (ar : Arith) (env : Env) (rounds : Nat) (t : Term) (m : Meter) :
    reduceUpTo ar env rounds t m =
      t.reduceWith ar env (reduceAfter ar env rounds) (m.need t) := by
  cases rounds <;> rfl

/-- Asking for a term takes no step. -/
@[simp] theorem Meter.remaining_need (m : Meter) (t : Term) :
    (m.need t).remaining = m.remaining := by
  simp [Meter.remaining]

/-- The next step is one at which cancellation is looked for, and the run has been canceled. -/
def Meter.polls (m : Meter) : Bool :=
  m.canceled && (m.steps + 1) % Meter.pollInterval == 0

/-- What can come of asking for a step: nothing if the meter has stopped, a stop at the limit or at a
look at cancellation, or a step. -/
theorem Meter.fire_cases (m : Meter) :
    (m.stopped.isSome = true ∧ m.fire = (false, m)) ∨
    (m.stopped = none ∧ m.limit ≤ m.steps ∧
      m.fire = (false, { m with steps := m.steps + 1, stopped := some .outOfFuel })) ∨
    (m.stopped = none ∧ m.steps < m.limit ∧ m.polls = true ∧
      m.fire = (false, { m with steps := m.steps + 1, stopped := some .canceled })) ∨
    (m.stopped = none ∧ m.steps < m.limit ∧ m.polls = false ∧
      m.fire = (true, { m with steps := m.steps + 1 })) := by
  unfold Meter.fire
  cases running : m.stopped with
  | some stop => simp
  | none =>
      by_cases out : m.limit ≤ m.steps
      · simp [out, Nat.lt_succ_of_le out]
      · have within : ¬ m.limit < m.steps + 1 := by omega
        cases polls : m.polls with
        | true =>
            simp only [Meter.polls] at polls
            simp [within, polls, Nat.lt_of_not_le out]
        | false =>
            simp only [Meter.polls] at polls
            simp [within, polls, Nat.lt_of_not_le out]

/-- A step does not add to what remains. -/
theorem Meter.remaining_fire_le (m : Meter) : m.fire.2.remaining ≤ m.remaining := by
  obtain ⟨-, fire⟩ | ⟨-, -, fire⟩ | ⟨-, -, -, fire⟩ | ⟨-, -, -, fire⟩ := m.fire_cases
  all_goals simp only [fire, Meter.remaining]
  all_goals omega

/-- A meter that has refused a step has stopped. -/
theorem Meter.stopped_of_refused {m m' : Meter} (refused : m.fire = (false, m')) :
    m'.stopped.isSome = true := by
  obtain ⟨stopped, fire⟩ | ⟨-, -, fire⟩ | ⟨-, -, -, fire⟩ | ⟨-, -, -, fire⟩ := m.fire_cases
  all_goals
    rw [fire] at refused
    cases refused
  · exact stopped
  · rfl
  · rfl

/-- A meter that grants a step has not stopped. -/
theorem Meter.running_of_granted {m m' : Meter} (granted : m.fire = (true, m')) :
    m.stopped = none := by
  obtain ⟨-, fire⟩ | ⟨-, -, fire⟩ | ⟨-, -, -, fire⟩ | ⟨running, -, -, -⟩ := m.fire_cases
  · rw [fire] at granted
    cases granted
  · rw [fire] at granted
    cases granted
  · rw [fire] at granted
    cases granted
  · exact running

namespace Run

variable {ar : Arith} {env : Env} {jobs : List (Bool × Term)} {m m' : Meter} {us : List Term}

/-- A run gives one term for each job. -/
theorem length_eq (run : Run ar env jobs m us m') : us.length = jobs.length := by
  induction run with
  | nil => rfl
  | cons => simp_all
  | _ => rfl

/-- A run does not add to what remains. -/
theorem remaining_le (run : Run ar env jobs m us m') : m'.remaining ≤ m.remaining := by
  induction run with
  | nil m => exact Nat.le_refl _
  | cons _ _ _ _ _ _ _ _ _ ih ih' => exact Nat.le_trans ih' ih
  | need t m u m₁ _ ih => simpa using ih
  | stay _ _ _ _ _ _ _ _ _ ih ih' => exact Nat.le_trans ih' ih
  | refused t m ps m₁ c m₂ qs m₃ _ _ fire _ ih ih' =>
      have le := m₁.remaining_fire_le
      rw [fire] at le
      exact Nat.le_trans (Nat.le_trans ih' le) ih
  | fired t m ps m₁ c m₂ u m₃ _ _ fire _ ih ih' =>
      have le := m₁.remaining_fire_le
      rw [fire] at le
      exact Nat.le_trans (Nat.le_trans ih' le) ih

end Run

section Function

variable {ar : Arith} {env : Env}

/-- Jobs that are run one by one are run in turn. -/
theorem run_jobs {again : Term → Meter → Term × Meter} {n : Nat} {jobs : List (Bool × Term)}
    (each : ∀ job ∈ jobs, ∀ m : Meter, m.remaining ≤ n →
      Run ar env [(false, job.2)] m [(job.2.reduceWith ar env again m).1]
        (job.2.reduceWith ar env again m).2)
    {m : Meter} (enough : m.remaining ≤ n) :
    Run ar env jobs m (reduceJobs ar env again jobs m).1 (reduceJobs ar env again jobs m).2 := by
  induction jobs generalizing m with
  | nil => exact .nil m
  | cons job jobs ih =>
      obtain ⟨needed, t⟩ := job
      have first := each (needed, t) List.mem_cons_self (if needed then m.need t else m)
        (by split <;> simpa using enough)
      have run : Run ar env [(needed, t)] m
          [(t.reduceWith ar env again (if needed then m.need t else m)).1]
          (t.reduceWith ar env again (if needed then m.need t else m)).2 := by
        cases needed with
        | false => exact first
        | true => exact .need _ _ _ _ first
      exact .cons _ _ _ _ _ _ _ run
        (ih (fun job member => each job (List.mem_cons_of_mem _ member))
          (Nat.le_trans run.remaining_le enough))

/-- The jobs before and after the rules are the parts of the term. -/
theorem Term.map_early_late (t : Term) :
    t.early.map Prod.snd ++ t.late.map Prod.snd = t.parts.map Prod.snd := by
  rw [← List.map_append, Term.early_append_late, List.map_map]
  rfl

/-- A term has as many parts as jobs. -/
theorem Term.length_jobs {t : Term} {ps qs : List Term} (early : ps.length = t.early.length)
    (late : qs.length = t.late.length) : (ps ++ qs).length = t.parts.length := by
  have count := congrArg List.length t.map_early_late
  simpa [early, late] using count

/-- Going through a term is a run if what comes after each rule is one. -/
theorem run_reduceWith {again : Term → Meter → Term × Meter} {n : Nat}
    (next : ∀ t (m : Meter), m.remaining < n → Run ar env [(true, t)] m [(again t m).1] (again t m).2)
    (t : Term) (m : Meter) (enough : m.remaining ≤ n) :
    Run ar env [(false, t)] m [(t.reduceWith ar env again m).1]
      (t.reduceWith ar env again m).2 := by
  induction t using Term.byParts generalizing m with
  | step t ih =>
      have inside : ∀ job ∈ t.early ++ t.late, ∀ m : Meter, m.remaining ≤ n →
          Run ar env [(false, job.2)] m [(job.2.reduceWith ar env again m).1]
            (job.2.reduceWith ar env again m).2 := by
        intro job member
        have member' : job.2 ∈ t.parts.map Prod.snd := by
          rw [← t.map_early_late, ← List.map_append]
          exact List.mem_map_of_mem member
        obtain ⟨part, member, same⟩ := List.mem_map.1 member'
        rw [← same]
        exact ih part member
      have early := run_jobs (fun job member => inside job (List.mem_append_left _ member)) enough
      have late : ∀ m : Meter, m.remaining ≤ n → _ := fun m =>
        run_jobs (m := m) fun job member => inside job (List.mem_append_right _ member)
      rw [Term.reduceWith_eq]
      generalize reduceJobs ar env again t.early m = done at early
      obtain ⟨ps, m₁⟩ := done
      have enough₁ := Nat.le_trans early.remaining_le enough
      dsimp only at early enough₁ ⊢
      split
      · rename_i none
        exact .stay _ _ _ _ _ _ early none (late m₁ enough₁)
      · rename_i c some
        split
        · rename_i m₂ fire
          have less := Meter.remaining_fire (m := m₁) (by rw [fire])
          rw [fire] at less
          rw [Contractum.resume_eq]
          exact .fired _ _ _ _ _ _ _ _ early some fire (next _ _ (by simp only at less; omega))
        · rename_i m₂ fire
          have le := m₁.remaining_fire_le
          rw [fire] at le
          exact .refused _ _ _ _ _ _ _ _ early some fire (late m₂ (Nat.le_trans le enough₁))

/-- Enough rounds make a run. -/
theorem run_reduceUpTo (rounds : Nat) (t : Term) (m : Meter) (enough : m.remaining ≤ rounds) :
    Run ar env [(true, t)] m [(reduceUpTo ar env rounds t m).1] (reduceUpTo ar env rounds t m).2 := by
  induction rounds generalizing t m with
  | zero =>
      refine .need _ _ _ _ (run_reduceWith (n := 0) ?_ t _ (by simpa using enough))
      exact fun _ _ none => absurd none (Nat.not_lt_zero _)
  | succ rounds ih =>
      refine .need _ _ _ _ (run_reduceWith (n := rounds + 1) ?_ t _ (by simpa using enough))
      exact fun t m less => ih t m (Nat.le_of_lt_succ less)

/-- Every job can be run. -/
theorem run_total (ar : Arith) (env : Env) (jobs : List (Bool × Term)) (m : Meter) :
    ∃ us m', Run ar env jobs m us m' := by
  have next : ∀ t (m' : Meter), m'.remaining < m.remaining + 1 → Run ar env [(true, t)] m'
      [(reduceUpTo ar env m.remaining t m').1] (reduceUpTo ar env m.remaining t m').2 :=
    fun t m' less => run_reduceUpTo m.remaining t m' (Nat.le_of_lt_succ less)
  exact ⟨_, _, run_jobs (fun job _ => run_reduceWith next job.2) (Nat.le_succ m.remaining)⟩

/-- A run is made by as many rounds as it has steps left, and by more. -/
theorem Run.reduceJobs_eq {jobs : List (Bool × Term)} {m m' : Meter} {us : List Term}
    (run : Run ar env jobs m us m') {rounds : Nat} (enough : m.remaining ≤ rounds) :
    reduceJobs ar env (reduceAfter ar env rounds) jobs m = (us, m') := by
  induction run generalizing rounds with
  | nil => rfl
  | cons job jobs m u m₁ us m₂ first _ ih ih' =>
      have head := ih enough
      have rest := ih' (Nat.le_trans first.remaining_le enough)
      simp only [reduceJobs, Prod.mk.injEq, List.cons.injEq, and_true] at head ⊢
      simp only [head, rest, and_self]
  | need t m u m₁ _ ih =>
      simpa [reduceJobs] using ih (by simpa using enough)
  | stay t m ps m₁ qs m₂ early none late ih ih' =>
      have first := ih enough
      have last := ih' (Nat.le_trans early.remaining_le enough)
      simp only [reduceJobs, Bool.false_eq_true, if_false, Term.reduceWith_eq, first, none,
        Term.rebuild, last]
  | refused t m ps m₁ c m₂ qs m₃ early some fire late ih ih' =>
      have le := m₁.remaining_fire_le
      rw [fire] at le
      have first := ih enough
      have last := ih' (Nat.le_trans (Nat.le_trans le early.remaining_le) enough)
      simp only [reduceJobs, Bool.false_eq_true, if_false, Term.reduceWith_eq, first, some, fire,
        Term.rebuild, last]
  | fired t m ps m₁ c m₂ u m₃ early some fire _ ih ih' =>
      have less := Meter.remaining_fire (m := m₁) (by rw [fire])
      rw [fire] at less
      have le := early.remaining_le
      have first := ih enough
      match rounds, enough with
      | 0, enough => simp only at less; omega
      | rounds + 1, enough =>
          have next := @ih' rounds (by simp only at less; omega)
          have next' : reduceAfter ar env (rounds + 1) c.inner m₂ = (u, m₃) := by
            rw [reduceAfter, reduceUpTo_eq]
            simpa [reduceJobs, Prod.ext_iff] using next
          simp only [reduceJobs, Bool.false_eq_true, if_false, Term.reduceWith_eq, first, some, fire,
            Contractum.resume_eq, next']

/-- Reducing a term is running one job. -/
theorem reduce_iff {t u : Term} {m m' : Meter} :
    reduce ar env t m = (u, m') ↔ Run ar env [(true, t)] m [u] m' := by
  constructor
  · intro h
    have run : Run ar env [(true, t)] m [(reduce ar env t m).1] (reduce ar env t m).2 :=
      run_reduceUpTo m.remaining t m (Nat.le_refl _)
    rwa [h] at run
  · intro run
    have jobs := run.reduceJobs_eq (Nat.le_refl _)
    rw [reduce, reduceUpTo_eq]
    simpa [reduceJobs, Prod.ext_iff] using jobs

end Function

/-- Whether a duplication is a redex depends on its value only. -/
theorem contract?_dup_none {ar : Arith} {env : Env} {name name' : String} {value body body' : Term}
    (none : (Term.dup name value body).contract? ar env = none) :
    (Term.dup name' value body').contract? ar env = Option.none := by
  cases value <;> simp_all [Term.contract?]

/-- Whether a term is a redex does not depend on the parts that are reduced last. -/
theorem contract?_late {ar : Arith} {env : Env} {t : Term} {ps qs : List Term}
    (none : (t.withParts (ps ++ t.late.map Prod.snd)).contract? ar env = none)
    (early : ps.length = t.early.length) (late : qs.length = t.late.length) :
    (t.withParts (ps ++ qs)).contract? ar env = Option.none := by
  cases t with
  | dup name value body =>
      obtain ⟨value', rfl⟩ := List.length_eq_one_iff.1 early
      obtain ⟨body', rfl⟩ := List.length_eq_one_iff.1 late
      exact contract?_dup_none none
  | _ =>
      obtain rfl := List.length_eq_zero_iff.1 late
      exact none

/-- The rule that moves a duplication outward has looked at it. -/
theorem contract?_under {ar : Arith} {env : Env} {name : String} {t value body : Term}
    {ps : List Term} (same : ps.length = t.early.length)
    (found : (t.withParts (ps ++ t.late.map Prod.snd)).contract? ar env =
      some (.under name value body)) : ∃ inner, Term.dup name value inner ∈ ps := by
  cases t with
  | app erased fn arg =>
      obtain ⟨fn, arg, rfl⟩ := List.length_eq_two.1 same
      cases fn <;> simp_all [Term.late, Term.contract?]
  | split =>
      obtain ⟨scrutinee, motive, body, rfl⟩ := List.length_eq_three.1 same
      cases scrutinee <;> simp_all [Term.late, Term.contract?]
  | dup =>
      obtain ⟨value, rfl⟩ := List.length_eq_one_iff.1 same
      cases value <;> simp_all [Term.late, Term.contract?]
  | caseOf type value name motive branches =>
      match ps, same with
      | type :: value :: motive :: terms, same =>
          simp only [Term.withParts_caseOf, Term.late, Term.contract?, List.map_nil, List.append_nil] at found
          split at found
          · simp at found
          · rename_i name' boxed inner spine
            have value_eq : value = .dup name' boxed inner := by
              rw [← Term.apply_spine value, spine]
              rfl
            refine ⟨inner, ?_⟩
            simp_all
          · cases found
  | hole | var | univ | data => cases found
  | ref =>
      simp [Term.contract?] at found
  | ctr | box | boxType =>
      obtain ⟨a, rfl⟩ := List.length_eq_one_iff.1 same
      cases found
  | pi | lam | sigma =>
      obtain ⟨a, b, rfl⟩ := List.length_eq_two.1 same
      cases found
  | pair =>
      obtain ⟨a, b, c, rfl⟩ := List.length_eq_three.1 same
      cases found

/-- Replacing the jobs of a term replaces its parts. -/
theorem Parted.of_jobs {R : Term → Term → Prop} {t : Term} {ps qs : List Term}
    (early : List.Forall₂ (fun job u => R job.2 u) t.early ps)
    (late : List.Forall₂ (fun job u => R job.2 u) t.late qs) :
    Parted R t (t.withParts (ps ++ qs)) := by
  refine ⟨ps ++ qs, ?_, rfl⟩
  rw [← List.forall₂_map_left_iff (f := Prod.snd), ← t.map_early_late, ← List.map_append,
    List.forall₂_map_left_iff]
  exact List.rel_append early late

/-- Steps of the jobs of a term are steps of the term. -/
theorem steps_of_jobs {ar : Arith} {env : Env} {t : Term} {ps qs : List Term}
    (early : List.Forall₂ (fun job u => Steps ar env job.2 u) t.early ps)
    (late : List.Forall₂ (fun job u => Steps ar env job.2 u) t.late qs) :
    Steps ar env t (t.withParts (ps ++ qs)) :=
  parts_steps (.of_jobs early late)

namespace Run

variable {ar : Arith} {env : Env} {jobs : List (Bool × Term)} {m m' : Meter} {us : List Term}

/-- Every run takes steps of the rewriting relation only. -/
theorem steps (run : Run ar env jobs m us m') :
    List.Forall₂ (fun job u => Steps ar env job.2 u) jobs us := by
  induction run with
  | nil => exact .nil
  | cons _ _ _ _ _ _ _ _ _ ih ih' => exact .cons (by simpa using ih) ih'
  | need t m u m₁ _ ih => simpa using ih
  | stay t m ps m₁ qs m₂ _ _ _ ih ih' => exact .cons (steps_of_jobs ih ih') .nil
  | refused t m ps m₁ c m₂ qs m₃ _ _ _ _ ih ih' => exact .cons (steps_of_jobs ih ih') .nil
  | fired t m ps m₁ c m₂ u m₃ _ some _ _ ih ih' =>
      refine .cons ?_ .nil
      have before : Steps ar env t (t.withParts (ps ++ t.late.map Prod.snd)) := by
        refine steps_of_jobs ih ?_
        rw [List.forall₂_map_right_iff, List.forall₂_same]
        exact fun _ _ => .refl
      have contracts := before.tail (.root _ _ ⟨c, some, rfl⟩)
      have after : Steps ar env c.inner u := by simpa using ih'
      rw [← c.around_inner] at contracts
      refine contracts.trans ?_
      cases c with
      | plain => exact after
      | under name value body => exact parts_steps (Parted.dup_iff.2 ⟨_, _, .refl, after, rfl⟩)

/-- A run that has not stopped did not stop before. -/
theorem running (run : Run ar env jobs m us m') (going : m'.stopped = none) : m.stopped = none := by
  induction run with
  | nil => exact going
  | cons _ _ _ _ _ _ _ _ _ ih ih' => exact ih (ih' going)
  | need t m u m₁ _ ih =>
      have before := ih going
      unfold Meter.need at before
      split at before
      · cases before
      · exact before
  | stay _ _ _ _ _ _ _ _ _ ih ih' => exact ih (ih' going)
  | refused t m ps m₁ c m₂ qs m₃ _ _ fire _ ih ih' =>
      have stopped := Meter.stopped_of_refused fire
      rw [ih' going] at stopped
      cases stopped
  | fired t m ps m₁ c m₂ u m₃ _ _ fire _ ih ih' => exact ih (Meter.running_of_granted fire)

/-- A run that has not stopped has left no redex. -/
theorem normal (run : Run ar env jobs m us m') (going : m'.stopped = none) :
    ∀ u ∈ us, Normal ar env u := by
  induction run with
  | nil => simp
  | cons job jobs m u m₁ us m₂ _ rest ih ih' =>
      have first := ih (rest.running going)
      simp_all
  | need t m u m₁ _ ih => exact ih going
  | stay t m ps m₁ qs m₂ early none late ih ih' =>
      have parts := ih (late.running going)
      have parts' := ih' going
      rw [List.forall_mem_singleton, normal_iff]
      refine ⟨contract?_late none early.length_eq late.length_eq, ?_⟩
      have same := Term.length_jobs early.length_eq late.length_eq
      intro part member
      have member' : part.2 ∈ ps ++ qs := by
        rw [← Term.terms_withParts same]
        exact List.mem_map_of_mem member
      rcases List.mem_append.1 member' with member' | member'
      · exact parts _ member'
      · exact parts' _ member'
  | refused t m ps m₁ c m₂ qs m₃ _ _ fire late ih ih' =>
      have stopped := Meter.stopped_of_refused fire
      rw [late.running going] at stopped
      cases stopped
  | fired t m ps m₁ c m₂ u m₃ early some fire run ih ih' =>
      have after : Normal ar env u := by simpa using ih' going
      rw [List.forall_mem_singleton]
      cases c with
      | plain => exact after
      | under name value body =>
          -- The duplication was normal before it moved, so its value is no box and no duplication.
          obtain ⟨inner, member⟩ := contract?_under early.length_eq some
          have before := normal_iff.1 (ih (Meter.running_of_granted fire) _ member)
          rw [Contractum.around, normal_iff]
          refine ⟨contract?_dup_none before.1, ?_⟩
          have value_normal := before.2
          simp only [Term.parts, List.forall_mem_cons] at value_normal ⊢
          exact ⟨value_normal.1, after, by simp⟩

end Run

end BoxCalculus
