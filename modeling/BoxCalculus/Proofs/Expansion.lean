import BoxCalculus.Proofs.Settled
import BoxCalculus.Proofs.Unfolding
import BoxCalculus.Proofs.UniqueNormalForms

/-!
# Reducing over a book

Reducing a term over a book, where references are unfolded as they are met, gives what reducing the
expansion of the term gives (`reduce?_expand`).

The two reductions go in step. What both have reduced so far is the same, since nothing is left to
unfold in a normal form. The terms they have still to reduce are related by `Unfolds`
(`Run.unfolds`). Where the one unfolds a reference, the other has the expansion already, and at most
lets an identity compute that expansion has put around it.

The bodies of duplications are substituted into before they are reduced, and there expansions have to
be passed by. This is the case as long as binders are counted that are fewer than `2 ^ 63`, which is
asked of the terms that the reduction of the expansion goes through (`StaysShallow`).
-/

namespace BoxCalculus

variable {t : Term} {jobs : List (Bool × Term)} {m m' m₁ m₂ : Meter} {us ps : List Term}

/-- Fewer than `2 ^ 63` binders are nested in the term, as far as there are variables below them. -/
def Term.shallow (t : Term) : Bool :=
  t.allVars (fun depth _ => depth < 2 ^ 63) 0

/-- The parts of a shallow term are shallow. -/
theorem Term.shallow_part (shallow : t.shallow = true) {part : Nat × Term} (mem : part ∈ t.parts) :
    part.2.shallow = true := by
  have compound : ∀ i, t ≠ .var i := by
    rintro i rfl
    cases mem
  rw [Term.shallow, Term.allVars_eq_all _ _ compound, List.all_eq_true] at shallow
  refine Term.allVars_mono (fun k i => ?_) (shallow part mem)
  simp only [decide_eq_true_eq]
  omega

/-- What is put in place as a part of a shallow term is shallow. -/
theorem Term.shallow_parts (same : ps.length = t.parts.length)
    (shallow : (t.withParts ps).shallow = true) : ∀ p ∈ ps, p.shallow = true := by
  rw [← Term.terms_withParts same, List.forall_mem_map]
  exact fun part mem => Term.shallow_part shallow mem

/-- A term can be stopped after its early parts have been run, before the rule that applies is. -/
theorem Run.interrupted {ar : Arith} {env : Env} {c : Contractum} (early : Run ar env t.early m ps m₁)
    (rule : (t.withParts (ps ++ t.late.map Prod.snd)).contract? ar env = some c)
    (granted : m₁.fire = (true, m₂)) :
    ∃ m', Run ar env [(false, t)] (m.withLimit m₁.steps)
      [t.withParts (ps ++ t.late.map Prod.snd)] m' := by
  have within : m₁.steps ≤ m.limit := by
    rw [← early.limit_eq]
    exact Nat.le_trans (Meter.steps_of_fire granted) (Meter.within_of_granted granted)
  have early' := early.relimit within (Nat.le_refl _)
  match fire : (m₁.withLimit m₁.steps).fire with
  | (true, m₃) =>
      have beyond := Meter.within_of_granted fire
      obtain ⟨-, eq⟩ | ⟨-, -, eq⟩ | ⟨-, -, -, eq⟩ | ⟨-, below, -, -⟩ :=
        (m₁.withLimit m₁.steps).fire_cases
      · rw [eq] at fire
        cases fire
      · rw [eq] at fire
        cases fire
      · rw [eq] at fire
        cases fire
      · exact absurd below (Nat.lt_irrefl _)
  | (false, m₃) =>
      obtain ⟨qs, m', late⟩ := run_total ar env t.late m₃
      refine ⟨m', ?_⟩
      rw [← late.eq_of_stopped (Meter.stopped_of_refused fire)]
      exact .refused _ _ _ _ _ _ _ _ early' rule fire late

/-- At whatever step the jobs are stopped, the terms are shallow. -/
def Shallow (jobs : List (Bool × Term)) (m : Meter) : Prop :=
  ∀ limit us m', m.steps ≤ limit → Run .word .empty jobs (m.withLimit limit) us m' →
    ∀ u ∈ us, u.shallow = true

namespace Shallow

/-- The first of jobs that stay shallow stays so. -/
theorem head {job : Bool × Term} (shallow : Shallow (job :: jobs) m) : Shallow [job] m := by
  intro limit us m' le run
  obtain ⟨u, rfl⟩ := List.length_eq_one_iff.1 run.length_eq
  obtain ⟨vs, m'', rest⟩ := run_total .word .empty jobs m'
  have all := shallow limit _ _ le (.cons _ _ _ _ _ _ _ run rest)
  exact List.forall_mem_singleton.2 (List.forall_mem_cons.1 all).1

/-- The other jobs stay shallow after the first has been done. -/
theorem tail {job : Bool × Term} {v : Term} (shallow : Shallow (job :: jobs) m)
    (first : Run .word .empty [job] m [v] m₁) (within : m₁.steps ≤ m.limit) : Shallow jobs m₁ := by
  intro limit us m' le run
  have all := shallow limit _ _ (Nat.le_trans first.steps_le le)
    (.cons _ _ _ _ _ _ _ (first.relimit within le) run)
  exact (List.forall_mem_cons.1 all).2

/-- Whether a term that is there is needed makes no difference. -/
theorem needed_iff (there : t.isHole = false) : Shallow [(true, t)] m ↔ Shallow [(false, t)] m := by
  constructor
  all_goals
    intro shallow limit us m' le run
    obtain ⟨u, rfl⟩ := List.length_eq_one_iff.1 run.length_eq
  · exact shallow limit _ m' le (run.needed there)
  · exact shallow limit _ m' le (run.unneeded there)

/-- The jobs before the rules stay shallow if the term does. -/
theorem early (shallow : Shallow [(false, t)] m) : Shallow t.early m := by
  intro limit ps m₁ le run
  obtain ⟨qs, limit', m', count, le', whole⟩ : ∃ qs limit' m', qs.length = t.late.length ∧
      m.steps ≤ limit' ∧
      Run .word .empty [(false, t)] (m.withLimit limit') [t.withParts (ps ++ qs)] m' := by
    cases rule : (t.withParts (ps ++ t.late.map Prod.snd)).contract? .word .empty with
    | none =>
        obtain ⟨qs, m', late⟩ := run_total .word .empty t.late m₁
        exact ⟨qs, limit, m', late.length_eq, le, .stay _ _ _ _ _ _ run rule late⟩
    | some c =>
        match fire : m₁.fire with
        | (false, m₂) =>
            obtain ⟨qs, m', late⟩ := run_total .word .empty t.late m₂
            exact ⟨qs, limit, m', late.length_eq, le, .refused _ _ _ _ _ _ _ _ run rule fire late⟩
        | (true, m₂) =>
            obtain ⟨m', whole⟩ := run.interrupted rule fire
            exact ⟨_, m₁.steps, m', List.length_map .., run.steps_le, whole⟩
  have here := List.forall_mem_singleton.1 (shallow limit' _ m' le' whole)
  have parts := Term.shallow_parts (Term.length_jobs run.length_eq count) here
  exact (List.forall_mem_append.1 parts).1

variable {c : Contractum} (shallow : Shallow [(false, t)] m)
  (early : Run .word .empty t.early m ps m₁)
include shallow early

/-- The jobs after the rules stay shallow if the term does. -/
theorem late (within : m₁.steps ≤ m.limit)
    (none : (t.withParts (ps ++ t.late.map Prod.snd)).contract? .word .empty = none) :
    Shallow t.late m₁ := by
  intro limit qs m' le run
  have whole := Run.stay _ _ _ _ _ _ (early.relimit within le) none run
  have here := List.forall_mem_singleton.1
    (shallow limit _ m' (Nat.le_trans early.steps_le le) whole)
  have parts := Term.shallow_parts (Term.length_jobs early.length_eq run.length_eq) here
  exact (List.forall_mem_append.1 parts).2

/-- A redex of a term that stays shallow is shallow. -/
theorem redex (rule : (t.withParts (ps ++ t.late.map Prod.snd)).contract? .word .empty = some c)
    (granted : m₁.fire = (true, m₂)) :
    (t.withParts (ps ++ t.late.map Prod.snd)).shallow = true := by
  obtain ⟨m', whole⟩ := early.interrupted rule granted
  exact shallow _ _ m' early.steps_le whole _ (.head _)

/-- What a rule leaves to reduce stays shallow if the term does. -/
theorem next (rule : (t.withParts (ps ++ t.late.map Prod.snd)).contract? .word .empty = some c)
    (granted : m₁.fire = (true, m₂)) : Shallow [(true, c.inner)] m₂ := by
  intro limit us m' le run
  obtain ⟨u, rfl⟩ := List.length_eq_one_iff.1 run.length_eq
  have le₁ := Nat.le_trans (Meter.steps_of_fire granted) le
  have within := Meter.within_of_granted granted
  have within₁ : m₁.steps ≤ m.limit := by
    rw [← early.limit_eq]
    exact Nat.le_trans (Meter.steps_of_fire granted) within
  have whole := Run.fired _ _ _ _ _ _ _ _ (early.relimit within₁ le₁) rule
    (Meter.fire_withLimit limit granted within le) run
  have here := List.forall_mem_singleton.1
    (shallow limit _ m' (Nat.le_trans early.steps_le le₁) whole)
  rw [List.forall_mem_singleton]
  cases c with
  | plain => exact here
  | under name value body =>
      have inside : (1, u) ∈ (Term.dup name value u).parts := .tail _ (.head _)
      exact Term.shallow_part here inside

end Shallow

/-- A rule applies in every environment that has the definition it unfolds. -/
theorem Rule.transfer {ar : Arith} {env env' : Env} {c : Contractum} (rule : Rule ar env t c)
    (defs : ∀ name, t = .ref name → ∀ d, env name = some d → env' name = some d) :
    Rule ar env' t c := by
  cases rule with
  | unfold name d found => exact .unfold name d (defs name rfl d found)
  | beta => exact .beta ..
  | floatApp => exact .floatApp ..
  | unpair => exact .unpair ..
  | floatSplit => exact .floatSplit ..
  | unbox => exact .unbox ..
  | floatDup => exact .floatDup ..
  | select _ _ _ _ _ _ _ _ found => exact .select _ _ _ _ _ _ _ _ found
  | floatCase => exact .floatCase ..

/-- A rule that needs no definition does not apply where none does. -/
theorem contract?_empty_none {ar : Arith} {env : Env} (none : t.contract? ar env = none) :
    t.contract? ar .empty = Option.none := by
  cases rule : t.contract? ar .empty with
  | none => rfl
  | some c =>
      have rule' : Rule ar env t c := (rule_of_contract? rule).transfer fun _ _ _ found => by cases found
      rw [rule'.contract?] at none
      cases none

/-- Nothing is left to unfold in a normal form. -/
theorem Normal.leavesIn {ar : Arith} {env : Env} (normal : Normal ar env t) :
    LeavesIn (fun _ => True) (fun name => env name = none) t := by
  induction t using Term.byParts with
  | step t ih =>
      obtain ⟨none, parts⟩ := normal_iff.1 normal
      refine .intro ?_ fun part mem => ih part mem (parts part mem)
      cases t with
      | ref name => exact Option.map_eq_none_iff.1 none
      | _ => trivial

/-- The jobs of two terms with related parts. -/
theorem Parted.forall_jobs {R : Term → Term → Prop} {e : Term} (parted : Parted R t e) :
    List.Forall₂ (fun job job' => job.1 = job'.1 ∧ R job.2 job'.2) t.early e.early ∧
      List.Forall₂ (fun job job' => job.1 = job'.1 ∧ R job.2 job'.2) t.late e.late := by
  obtain ⟨ps, each, rfl⟩ := parted
  have split := (List.take_append_drop t.early.length ps).symm
  have count := congrArg List.length t.map_early_late
  simp only [List.length_append, List.length_map] at count
  have related : List.Forall₂ (fun job p => R job.2 p) (t.early ++ t.late) ps := by
    rw [Term.early_append_late, List.forall₂_map_left_iff]
    exact each
  have length := each.length_eq
  have early : (ps.take t.early.length).length = t.early.length := by simp; omega
  have late : (ps.drop t.early.length).length = t.late.length := by simp; omega
  obtain ⟨first, last⟩ := Term.jobs_withParts early late
  rw [← split] at first last
  rw [first, last]
  constructor
  · refine forall_zip_binders ?_
    simpa using List.forall₂_take t.early.length related
  · refine forall_zip_binders ?_
    simpa using List.forall₂_drop t.early.length related

/-- A rule that applies to a term in which nothing is left to unfold needs no environment, and nothing is
left to unfold in what it gives. -/
theorem Unfolds.contract_self {ar : Arith} {env : Env} {c : Contractum} (rule : Rule ar env t c)
    (leaves : LeavesIn (fun _ => True) (fun name => env name = none) t) :
    t.contract? ar .empty = some c ∧ Unfolds env c.inner c.inner := by
  have rule' : Rule ar .empty t c := by
    refine rule.transfer fun name isRef d found => ?_
    subst isRef
    rw [show env name = none from leaves.here] at found
    cases found
  have contractum := LeavesIn.contract rule' (fun _ _ => trivial) (fun _ _ found => by cases found) leaves
  refine ⟨rule'.contract?, .refl ?_⟩
  cases c with
  | plain => exact contractum
  | under => exact (LeavesIn.dup.1 contractum).2

/-- A term with related parts is the same as the other once all its parts have been replaced. -/
theorem Parted.withParts_jobs {R : Term → Term → Prop} {e : Term} {qs : List Term}
    (parted : Parted R t e) (early : ps.length = t.early.length) (late : qs.length = t.late.length) :
    e.withParts (ps ++ qs) = t.withParts (ps ++ qs) := by
  obtain ⟨es, each, rfl⟩ := parted
  exact Term.withParts_withParts _ each.length_eq.symm (Term.length_jobs early late)

/-- The rule that applies to a term once its early parts are normal applies also if its late parts have
been unfolded, and what it gives unfolds to what it gives then. -/
theorem Unfolds.contract {env : Env} {c : Contractum} {qs qs' : List Term}
    (rule : (t.withParts (ps ++ qs)).contract? .word env = some c)
    (unknown : ∀ name, t = .ref name → env name = none) (early : ps.length = t.early.length)
    (late : qs.length = t.late.length)
    (normal : ∀ p ∈ ps, LeavesIn (fun _ => True) (fun name => env name = none) p)
    (related : List.Forall₂ (Unfolds env) qs qs') :
    ∃ c', (t.withParts (ps ++ qs')).contract? .word .empty = some c' ∧
      (∀ u, c'.around u = c.around u) ∧
      ((t.withParts (ps ++ qs')).shallow = true → Unfolds env c.inner c'.inner) := by
  replace rule := rule_of_contract? rule
  by_cases isDup : ∃ name value body, t = .dup name value body
  · obtain ⟨name, _, _, rfl⟩ := isDup
    obtain ⟨value, rfl⟩ := List.length_eq_one_iff.1 early
    obtain ⟨body, rfl⟩ := List.length_eq_one_iff.1 late
    obtain ⟨body', _, unfolds, none, rfl⟩ := List.forall₂_cons_left_iff.1 related
    obtain rfl := List.forall₂_nil_left_iff.1 none
    replace normal := List.forall_mem_singleton.1 normal
    have below (shallow : (Term.dup name value body').shallow = true) :
        body'.allVars (fun k _ => k < 2 ^ 63 - 1) 0 = true := by
      refine Term.allVars_mono (fun k i => ?_) (Bool.and_eq_true_iff.1 shallow).2
      simp only [decide_eq_true_eq]
      omega
    change Rule .word env (.dup name value body) c at rule
    cases rule with
    | unbox _ v _ =>
        exact ⟨.plain (body'.subst .word v 0), rfl, fun _ => rfl,
          fun shallow => unfolds.subst (normal.part (.head _)) (below shallow)⟩
    | floatDup _ outer v inner _ =>
        refine ⟨.under outer v (.dup name inner (body'.shift .word 1 1)), rfl, fun _ => rfl,
          fun shallow => .of_parts (fun _ isRef => by cases isRef) (Parted.dup_iff.2 ?_)⟩
        exact ⟨inner, _, .refl (LeavesIn.dup.1 normal).2, unfolds.shift (below shallow), rfl⟩
  · have none : t.late = [] := by
      cases t with
      | dup name value body => exact absurd ⟨name, value, body, rfl⟩ isDup
      | _ => rfl
    obtain rfl := List.length_eq_zero_iff.1 (by rw [late, none]; rfl)
    obtain rfl := List.forall₂_nil_left_iff.1 related
    have here : t.leafIn (fun _ => True) (fun name => env name = Option.none) := by
      cases t with
      | ref name => exact unknown name rfl
      | _ => trivial
    have leaves := LeavesIn.withParts here (Term.length_jobs early (late.trans rfl)) (by simpa using normal)
    obtain ⟨rule', unfolds⟩ := Unfolds.contract_self rule leaves
    exact ⟨c, rule', fun _ => rfl, fun _ => unfolds⟩

/-- A lambda whose body is a variable keeps its form. -/
theorem Run.of_identity {ar : Arith} {env : Env} {label : String} {type fn : Term}
    (run : Run ar env [(true, .lam false label type (.var 0))] m [fn] m') (going : m'.stopped = none) :
    ∃ type', fn = .lam false label type' (.var 0) := by
  obtain ⟨ps, m₁, early, -, outcome⟩ := (run.unneeded rfl).of_term going
  obtain ⟨type', vs, m₂, rfl, -, rest⟩ := early.of_cons
  obtain ⟨body, rfl⟩ := List.length_eq_one_iff.1 rest.length_eq
  rcases outcome with ⟨-, qs, late, rfl⟩ | ⟨c, _, _, rule, -⟩
  · obtain rfl := List.length_eq_zero_iff.1 late.length_eq
    obtain ⟨_, _, none, -, ⟨-, _, _, rfl⟩ | ⟨_, _, _, rule, -⟩⟩ := rest.of_term (late.running going)
    · exact ⟨type', rfl⟩
    · cases rule
  · cases rule

/-- An identity that is applied to a term gives what the term gives. -/
theorem Run.of_annotated {label : String} {type e x v : Term}
    (run : Run .word .empty [(false, e)] m [v] m')
    (form : e = .app false (.lam false label type (.var 0)) x) (constant : e.constant = true)
    (going : m'.stopped = none) (within : m.steps ≤ m.limit) (shallow : Shallow [(false, e)] m) :
    ∃ a a', Run .word .empty [(true, x)] a [v] a' ∧ a'.stopped = none ∧ a.steps ≤ a.limit ∧
      Shallow [(true, x)] a := by
  subst form
  obtain ⟨ps, m₁, early, going₁, outcome⟩ := run.of_term going
  obtain ⟨fn, vs, a, rfl, first, rest⟩ := early.of_cons
  obtain ⟨y, rfl⟩ := List.length_eq_one_iff.1 rest.length_eq
  have going₀ := rest.running going₁
  obtain ⟨type', rfl⟩ := first.of_identity going₀
  have within₀ := first.within within going₀
  have shallow₀ : Shallow [(true, x)] a := shallow.early.tail first within₀
  have words : LeavesIn IsWord (fun _ => True) y := by
    have all : x.allVars (fun depth i => i < depth ∧ IsWord i) 0 = true :=
      (Bool.and_eq_true_iff.1 constant).2
    exact rest.leavesIn isWord_add (fun _ _ found => by cases found)
      (List.forall_mem_singleton.2 (Term.leavesIn_word all)) y (.head _)
  rcases outcome with ⟨none, -⟩ | ⟨c, m₂, u, rule, -, next, rfl⟩
  · cases none
  · cases rule
    -- The identity computes its argument, which is in normal form.
    change Run .word .empty [(true, (Term.var 0).subst .word y 0)] m₂ [u] m' at next
    rw [words.subst_var] at next
    obtain ⟨same, -⟩ := next.eq_of_settled (rest.settled going₁)
    cases same
    exact ⟨a, m₁, rest, going₁, by rwa [first.limit_eq], shallow₀⟩

/-- The jobs of a reduction that unfolds references, and those of one of what they unfold to. -/
abbrev UnfoldsJobs (env : Env) : List (Bool × Term) → List (Bool × Term) → Prop :=
  List.Forall₂ fun job job' => job.1 = job'.1 ∧ Unfolds env job.2 job'.2

/-- A single job unfolds to a single job. -/
theorem unfoldsJobs_singleton {env : Env} {needed : Bool} {jobs' : List (Bool × Term)} :
    UnfoldsJobs env [(needed, t)] jobs' ↔ ∃ e, jobs' = [(needed, e)] ∧ Unfolds env t e := by
  constructor
  · intro related
    obtain ⟨⟨_, e⟩, _, ⟨rfl, unfolds⟩, none, rfl⟩ := List.forall₂_cons_left_iff.1 related
    obtain rfl := List.forall₂_nil_left_iff.1 none
    exact ⟨e, rfl, unfolds⟩
  · rintro ⟨e, rfl, unfolds⟩
    exact .cons ⟨rfl, unfolds⟩ .nil

/-- A reduction that unfolds references and one of what the terms unfold to, both of which have not
stopped, give the same. -/
theorem Run.unfolds {env : Env} {jobs' : List (Bool × Term)} {n n' : Meter} {vs : List Term}
    (run : Run .word env jobs m us m') (going : m'.stopped = none)
    (related : UnfoldsJobs env jobs jobs') (run' : Run .word .empty jobs' n vs n')
    (going' : n'.stopped = none) (within : n.steps ≤ n.limit) (shallow : Shallow jobs' n) :
    us = vs := by
  induction run generalizing jobs' n vs n' with
  | nil =>
      obtain rfl := List.forall₂_nil_left_iff.1 related
      exact (List.length_eq_zero_iff.1 run'.length_eq).symm
  | cons job jobs m u m₁ us m₂ _ rest ih ih' =>
      obtain ⟨job', jobs', first, others, rfl⟩ := List.forall₂_cons_left_iff.1 related
      obtain ⟨v, vs, n₁, rfl, first', rest'⟩ := run'.of_cons
      have going₁ := rest'.running going'
      have within₁ := first'.within within going₁
      have heads := ih (rest.running going) (.cons first .nil) first' going₁ within shallow.head
      have tails := ih' going others rest' going' (by rwa [first'.limit_eq]) (shallow.tail first' within₁)
      rw [List.singleton_inj.1 heads, tails]
  | need t m u m₁ _ ih =>
      obtain ⟨e, rfl, unfolds⟩ := unfoldsJobs_singleton.1 related
      obtain ⟨v, rfl⟩ := List.length_eq_one_iff.1 run'.length_eq
      have there := run'.there_before (by simp [going'])
      exact ih going (unfoldsJobs_singleton.2 ⟨e, rfl, unfolds⟩) (run'.unneeded there) going' within
        ((Shallow.needed_iff there).1 shallow)
  | stay t m ps m₁ qs m₂ early none late ih ih' =>
      obtain ⟨e, rfl, unfolds⟩ := unfoldsJobs_singleton.1 related
      obtain ⟨v, rfl⟩ := List.length_eq_one_iff.1 run'.length_eq
      rcases unfolds.parts_or_ref with ⟨unknown, parts⟩ | ⟨name, d, rfl, found, -⟩
      · obtain ⟨firsts, lasts⟩ := parts.forall_jobs
        obtain ⟨ps', n₁, early', going₁, outcome⟩ := run'.of_term going'
        obtain rfl := ih (late.running going) firsts early' going₁ within shallow.early
        have within₁ := early'.within within going₁
        have none' : (e.withParts (ps ++ e.late.map Prod.snd)).contract? .word .empty = Option.none := by
          rw [parts.withParts_jobs early.length_eq (by simp [lasts.length_eq])]
          exact contract?_empty_none (contract?_late none early.length_eq (by simp [lasts.length_eq]))
        rcases outcome with ⟨-, qs', late', rfl⟩ | ⟨_, _, _, rule, -⟩
        · obtain rfl := ih' going lasts late' going' (by rwa [early'.limit_eq])
            (shallow.late early' within₁ none')
          rw [parts.withParts_jobs early.length_eq late.length_eq]
        · rw [none'] at rule
          cases rule
      · simp [Term.contract?, found] at none
  | refused t m ps m₁ c m₂ qs m₃ _ _ fire late _ _ =>
      have stopped := Meter.stopped_of_refused fire
      rw [late.running going] at stopped
      cases stopped
  | fired t m ps m₁ c m₂ u m₃ early some fire next ih ih' =>
      obtain ⟨e, rfl, unfolds⟩ := unfoldsJobs_singleton.1 related
      obtain ⟨v, rfl⟩ := List.length_eq_one_iff.1 run'.length_eq
      rcases unfolds.parts_or_ref with ⟨unknown, parts⟩ | ⟨name, d, rfl, found, replaced⟩
      · -- What has been reduced is the same, so the same rule applies to both terms.
        obtain ⟨firsts, lasts⟩ := parts.forall_jobs
        obtain ⟨ps', n₁, early', going₁, outcome⟩ := run'.of_term going'
        have running := Meter.running_of_granted fire
        obtain rfl := ih running firsts early' going₁ within shallow.early
        have same : e.withParts (ps ++ e.late.map Prod.snd) = t.withParts (ps ++ e.late.map Prod.snd) :=
          parts.withParts_jobs early.length_eq (by simp [lasts.length_eq])
        have bodies : List.Forall₂ (Unfolds env) (t.late.map Prod.snd) (e.late.map Prod.snd) := by
          rw [List.forall₂_map_left_iff, List.forall₂_map_right_iff]
          exact lasts.imp fun _ _ => And.right
        obtain ⟨c', rule, around, inner⟩ := Unfolds.contract some unknown early.length_eq
          (List.length_map ..) (fun p mem => (early.normal running p mem).leavesIn) bodies
        rw [← same] at rule inner
        rcases outcome with ⟨none, -⟩ | ⟨_, n₂, w, rule', fire', next', rfl⟩
        · rw [rule] at none
          cases none
        · obtain rfl := Option.some.inj (rule.symm.trans rule')
          have redex := shallow.redex early' rule fire'
          have within₂ : n₂.steps ≤ n₂.limit := by
            rw [Meter.limit_of_fire fire']
            exact Meter.within_of_granted fire'
          have results := ih' going (unfoldsJobs_singleton.2 ⟨_, rfl, inner redex⟩) next' going'
            within₂ (shallow.next early' rule fire')
          rw [List.singleton_inj.1 results, around]
      · obtain ⟨_, lookup, rfl⟩ := Option.map_eq_some_iff.1 some
        obtain rfl := Option.some.inj (found.symm.trans lookup)
        rcases replaced with ⟨unfolds, there⟩ | ⟨x, label, type, form, unfolds, constant⟩
        · exact ih' going (unfoldsJobs_singleton.2 ⟨e, rfl, unfolds⟩) (run'.needed there) going' within
            ((Shallow.needed_iff there).2 shallow)
        · obtain ⟨a, a', run', going', within, shallow⟩ :=
            run'.of_annotated form constant going' within shallow
          exact ih' going (unfoldsJobs_singleton.2 ⟨x, rfl, unfolds⟩) run' going' within shallow

/-- At whatever step the reduction of the term is stopped, the term is shallow. -/
def StaysShallow (t : Term) : Prop :=
  ∀ limit, (reduce .word .empty t ⟨limit, false, 0, none⟩).1.shallow = true

/-- A term that stays shallow is a job that does. -/
theorem StaysShallow.shallow (stays : StaysShallow t) :
    Shallow [(true, t)] (Meter.start 0 false) := by
  intro limit us m' _ run
  obtain ⟨u, rfl⟩ := List.length_eq_one_iff.1 run.length_eq
  have here := stays limit
  rw [show reduce .word .empty t ⟨limit, false, 0, none⟩ = (u, m') from reduce_iff.2 run] at here
  exact List.forall_mem_singleton.2 here

/-- Reducing a term over a book whose definitions are closed, and reducing its expansion over nothing,
give the same if both return. -/
theorem reduce?_expand {book : Book} {t e r r' : Term} (closed : book.Closed)
    (expands : book.expand t = .ok e) (stays : StaysShallow e)
    (returns : ({ env := book.lookup } : Kernel).reduce? t = some r)
    (returns' : ({} : Kernel).reduce? e = some r') : r = r' := by
  obtain ⟨m, run, going⟩ := Kernel.reduce?_iff.1 returns
  obtain ⟨m', run', going'⟩ := Kernel.reduce?_iff.1 returns'
  have unfolds := Book.unfolds_expand closed expands
  exact List.singleton_inj.1 (run.unfolds going (unfoldsJobs_singleton.2 ⟨e, rfl, unfolds⟩) run' going'
    (Nat.zero_le _) stays.shallow)

/-- The book with the one definition `id : {A : Type} {x : A} A = [A] [x] x`. -/
def identityBook : Book :=
  ⟨[{ name := "id", pos := ⟨"", 1, 1⟩
      type? := some (.pi false "A" .univ (.pi false "x" (.var 0) (.var 1)))
      term := .lam false "A" .hole (.lam false "x" .hole (.var 0)) }]⟩

/-- The term `dup x = box Type in ((id Type) x)`. -/
def referringDup : Term :=
  .dup "x" (.box .univ) (.app false (.app false (.ref "id") .univ) (.var 0))

/-- The expansion of `referringDup`. -/
def expandedDup : Term :=
  .dup "x" (.box .univ) (.app false (.app false
    (.app false (.lam false "id" (.pi false "A" .univ (.pi false "x" (.var 0) (.var 1))) (.var 0))
      (.lam false "A" .hole (.lam false "x" .hole (.var 0)))) .univ) (.var 0))

/-- No variable of `expandedDup` stands below many binders, at any step. -/
theorem expandedDup_staysShallow : StaysShallow expandedDup
  | 0 | 1 | 2 | 3 => rfl
  | limit + 4 => by
      have done : reduce .word .empty expandedDup ⟨4, false, 0, none⟩ = (.univ, ⟨4, false, 4, none⟩) := rfl
      have run := (reduce_iff.1 done).relimit (Nat.le_refl 4) (Nat.le_add_left 4 limit)
      have same : reduce .word .empty expandedDup ⟨limit + 4, false, 0, none⟩ = _ := reduce_iff.2 run
      rw [same]
      rfl

/-- The reference is unfolded after the box has been opened, and its expansion has become the argument
of an identity before. -/
theorem reduce?_expand_referringDup :
    identityBook.expand referringDup = .ok expandedDup ∧
      ∃ r r', ({ env := identityBook.lookup } : Kernel).reduce? referringDup = some r ∧
        ({} : Kernel).reduce? expandedDup = some r' ∧ r = r' := by
  have closed : identityBook.Closed := by
    intro definition mem
    obtain rfl := List.mem_singleton.1 mem
    refine ⟨by decide, fun type annotated => ?_⟩
    cases annotated
    decide
  have expands : identityBook.expand referringDup = .ok expandedDup := by rfl
  exact ⟨expands, .univ, .univ, rfl, rfl,
    reduce?_expand closed expands expandedDup_staysShallow rfl rfl⟩

end BoxCalculus
