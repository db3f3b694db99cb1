import BoxCalculus.Kernel
import BoxCalculus.Proofs.Gaps
import BoxCalculus.Proofs.Stuck

/-!
# One step of the meter, one application of a rule

Each step that a meter grants is one application of a rule somewhere in the term that is reduced, and
nothing is rewritten without being granted. So a run that is granted `k` steps rewrites its terms in
exactly `k` applications of rules (`Run.inSteps`), and normalizing with fuel takes at most as many as
there is fuel, and all of them if it runs out (`normalize_inSteps`).
-/

namespace BoxCalculus

/-- `InSteps R k a b` says that `b` can be reached from `a` in exactly `k` steps of `R`. -/
inductive InSteps {α : Type} (R : α → α → Prop) : Nat → α → α → Prop where
  | zero (a) : InSteps R 0 a a
  | succ {k a b c} : R a b → InSteps R k b c → InSteps R (k + 1) a c

/-- One application of a rule to the term, at any position in it. -/
abbrev Rewrites (ar : Arith) (env : Env) : Term → Term → Prop :=
  Inside fun t u => ∃ c, Rule ar env t c ∧ c.term = u

namespace InSteps

variable {α β : Type} {R : α → α → Prop} {S : β → β → Prop} {j k : Nat} {a b c : α}

/-- Steps are counted together. -/
theorem trans (first : InSteps R j a b) (second : InSteps R k b c) : InSteps R (j + k) a c := by
  induction first with
  | zero => rwa [Nat.zero_add]
  | succ step _ ih =>
      rw [Nat.add_right_comm]
      exact .succ step (ih second)

/-- Steps are kept by a map that keeps each. -/
theorem lift (f : α → β) (steps : ∀ a b, R a b → S (f a) (f b)) (count : InSteps R k a b) :
    InSteps S k (f a) (f b) := by
  induction count with
  | zero => exact .zero _
  | succ step _ ih => exact .succ (steps _ _ step) ih

end InSteps

/-- `EachInSteps R k as bs` says that each of `bs` can be reached from the one of `as` in its place, in
`k` steps of `R` taken together. -/
inductive EachInSteps {α : Type} (R : α → α → Prop) : Nat → List α → List α → Prop where
  | nil : EachInSteps R 0 [] []
  | cons {j k a b as bs} : InSteps R j a b → EachInSteps R k as bs →
      EachInSteps R (j + k) (a :: as) (b :: bs)

namespace EachInSteps

variable {α : Type} {R : α → α → Prop} {j k : Nat} {as bs : List α}

/-- In no steps each is reached from itself. -/
theorem refl : ∀ as : List α, EachInSteps R 0 as as
  | [] => .nil
  | a :: as => .cons (.zero a) (refl as)

/-- One term is reached in the steps that it takes. -/
theorem singleton {a b : α} : EachInSteps R k [a] [b] ↔ InSteps R k a b := by
  constructor
  · rintro ⟨⟩
    rename_i first rest
    cases rest
    exact first
  · intro steps
    exact .cons steps .nil

/-- The steps of two lists are counted together. -/
theorem append {cs ds : List α} (first : EachInSteps R j as bs) (second : EachInSteps R k cs ds) :
    EachInSteps R (j + k) (as ++ cs) (bs ++ ds) := by
  induction first with
  | nil => rwa [Nat.zero_add]
  | cons steps _ ih =>
      rw [Nat.add_assoc]
      exact .cons steps ih

/-- Steps in the parts that have been put in their place are steps of the term. -/
theorem withParts {R : Term → Term → Prop} {t : Term} {olds news before : List Term}
    (each : EachInSteps (Inside R) k olds news) (same : (before ++ olds).length = t.parts.length) :
    InSteps (Inside R) k (t.withParts (before ++ olds)) (t.withParts (before ++ news)) := by
  induction each generalizing before with
  | nil => exact .zero _
  | @cons j k old new olds news steps _ ih =>
      have here : InSteps (Inside R) j (t.withParts (before ++ old :: olds))
          (t.withParts (before ++ new :: olds)) := by
        refine steps.lift (fun p => t.withParts (before ++ p :: olds)) fun p p' step => ?_
        exact step.withParts (by simpa using same)
      have rest := @ih (before ++ [new]) (by simpa using same)
      rw [List.append_assoc, List.append_assoc] at rest
      exact here.trans rest

/-- Steps in the jobs of a term are steps of the term. -/
theorem of_jobs {R : Term → Term → Prop} {t : Term} {ps qs : List Term}
    (early : EachInSteps (Inside R) j (t.early.map Prod.snd) ps)
    (late : EachInSteps (Inside R) k (t.late.map Prod.snd) qs) :
    InSteps (Inside R) (j + k) t (t.withParts (ps ++ qs)) := by
  have each := early.append late
  rw [t.map_early_late] at each
  have steps := @withParts _ R t _ _ [] each (by simp)
  rwa [List.nil_append, List.nil_append, Term.withParts_parts] at steps

end EachInSteps

/-- `Grants m m' k` says that the meter `m` has granted `k` steps when it has become `m'`: it has counted
them unless it has stopped, they stay within the limit, and they reach it if it has run out of fuel. -/
structure Meter.Grants (m m' : Meter) (k : Nat) : Prop where
  limit_eq : m'.limit = m.limit
  counted : m'.stopped = none → m.stopped = none ∧ m'.steps = m.steps + k
  within : m.steps ≤ m.limit → m.steps + k ≤ m.limit
  spent : m.stopped = none → m.steps ≤ m.limit → m'.stopped = some .outOfFuel →
    m.steps + k = m.limit
  idle : m.stopped.isSome = true → k = 0 ∧ (m'.stopped = m.stopped ∨ m'.stopped = some .gap)

namespace Meter.Grants

variable {m m₁ m₂ : Meter} {j k : Nat}

/-- A meter that stays as it is has granted nothing. -/
theorem refl (m : Meter) : m.Grants m 0 where
  limit_eq := rfl
  counted := fun running => ⟨running, rfl⟩
  within := id
  spent := fun running _ out => by simp [running] at out
  idle := fun _ => ⟨rfl, .inl rfl⟩

/-- Grants are counted together. -/
theorem trans (first : m.Grants m₁ j) (second : m₁.Grants m₂ k) : m.Grants m₂ (j + k) := by
  have limit := first.limit_eq
  refine ⟨second.limit_eq.trans limit, fun running => ?_, fun within => ?_, fun running within out => ?_,
    fun stopped => ?_⟩
  · obtain ⟨running₁, steps⟩ := second.counted running
    obtain ⟨running, steps₁⟩ := first.counted running₁
    exact ⟨running, by omega⟩
  · have le := first.within within
    -- The steps that the first part was granted are counted unless it has stopped.
    cases stopped₁ : m₁.stopped with
    | some => rw [(second.idle (by rw [stopped₁]; rfl)).1]; exact le
    | none =>
        have steps := (first.counted stopped₁).2
        have le' := second.within (by omega)
        omega
  · cases stopped₁ : m₁.stopped with
    | some stop =>
        obtain ⟨none, after⟩ := second.idle (by rw [stopped₁]; rfl)
        have out₁ : m₁.stopped = some .outOfFuel := by
          rcases after with same | gap
          · rw [← same, out]
          · rw [out] at gap
            cases gap
        rw [none]
        exact first.spent running within out₁
    | none =>
        have steps := (first.counted stopped₁).2
        have le := first.within within
        have spent := second.spent stopped₁ (by omega) out
        omega
  · obtain ⟨none, after⟩ := first.idle stopped
    have stopped₁ : m₁.stopped.isSome = true := by
      rcases after with same | gap
      · rw [same, stopped]
      · rw [gap]; rfl
    obtain ⟨none', after'⟩ := second.idle stopped₁
    refine ⟨by omega, ?_⟩
    rcases after' with same | gap
    · rw [same]
      exact after
    · exact .inr gap

/-- Asking for a term grants nothing. -/
theorem need (m : Meter) (t : Term) : m.Grants (m.need t) 0 := by
  unfold Meter.need
  split
  · refine ⟨rfl, fun running => ?_, id, fun _ _ out => ?_, fun _ => ⟨rfl, .inr rfl⟩⟩
    · cases running
    · cases out
  · exact refl m

/-- A step that is granted. -/
theorem granted (fire : m.fire = (true, m₁)) : m.Grants m₁ 1 := by
  have running := Meter.running_of_granted fire
  obtain ⟨-, eq⟩ | ⟨-, -, eq⟩ | ⟨-, -, -, eq⟩ | ⟨-, within, -, eq⟩ := m.fire_cases
  all_goals
    rw [eq] at fire
    cases fire
  exact ⟨rfl, fun _ => ⟨running, rfl⟩, fun _ => within, fun _ _ out => by simp [running] at out,
    fun stopped => by simp [running] at stopped⟩

/-- A step that is refused. -/
theorem refused (fire : m.fire = (false, m₁)) : m.Grants m₁ 0 := by
  obtain ⟨-, eq⟩ | ⟨running, out, eq⟩ | ⟨running, -, -, eq⟩ | ⟨-, -, -, eq⟩ := m.fire_cases
  all_goals
    rw [eq] at fire
    cases fire
  · exact refl m
  · refine ⟨rfl, fun running => ?_, id, fun _ within _ => Nat.le_antisymm within out, fun stopped => ?_⟩
    · cases running
    · simp [running] at stopped
  · refine ⟨rfl, fun running => ?_, id, fun _ _ out => ?_, fun stopped => ?_⟩
    · cases running
    · cases out
    · simp [running] at stopped

end Meter.Grants

/-- A run takes one application of a rule for each step that it is granted. -/
theorem Run.inSteps {ar : Arith} {env : Env} {jobs : List (Bool × Term)} {m m' : Meter}
    {us : List Term} (run : Run ar env jobs m us m') :
    ∃ k, EachInSteps (Rewrites ar env) k (jobs.map Prod.snd) us ∧ m.Grants m' k := by
  induction run with
  | nil m => exact ⟨0, .nil, .refl m⟩
  | cons job jobs m u m₁ us m₂ _ _ ih ih' =>
      obtain ⟨j, first, grants⟩ := ih
      obtain ⟨k, rest, grants'⟩ := ih'
      exact ⟨j + k, first.append rest, grants.trans grants'⟩
  | need t m u m₁ _ ih =>
      obtain ⟨k, steps, grants⟩ := ih
      exact ⟨0 + k, by rwa [Nat.zero_add], (Meter.Grants.need m t).trans grants⟩
  | stay t m ps m₁ qs m₂ _ _ _ ih ih' =>
      obtain ⟨j, early, grants⟩ := ih
      obtain ⟨k, late, grants'⟩ := ih'
      exact ⟨j + k, EachInSteps.singleton.2 (early.of_jobs late), grants.trans grants'⟩
  | refused t m ps m₁ c m₂ qs m₃ _ _ fire _ ih ih' =>
      obtain ⟨j, early, grants⟩ := ih
      obtain ⟨k, late, grants'⟩ := ih'
      exact ⟨j + k, EachInSteps.singleton.2 (early.of_jobs late),
        (grants.trans (.refused fire)).trans grants'⟩
  | fired t m ps m₁ c m₂ u m₃ _ some fire _ ih ih' =>
      obtain ⟨j, early, grants⟩ := ih
      obtain ⟨k, next, grants'⟩ := ih'
      refine ⟨j + 1 + k, EachInSteps.singleton.2 ?_, (grants.trans (.granted fire)).trans grants'⟩
      have before := early.of_jobs (.refl (t.late.map Prod.snd))
      have contracts : Rewrites ar env (t.withParts (ps ++ t.late.map Prod.snd)) c.term :=
        .root _ _ ⟨c, rule_of_contract? some, rfl⟩
      have after : InSteps (Rewrites ar env) k c.term (c.around u) := by
        rw [← c.around_inner]
        have inner := EachInSteps.singleton.1 next
        cases c with
        | plain => exact inner
        | under name value body =>
            -- What is left to reduce is the body of the duplication that has moved outward.
            refine inner.lift (Term.dup name value) fun p p' step => ?_
            exact @Inside.withParts _ (.dup name value body) [value] [] p p' step rfl
      rw [Nat.add_assoc, Nat.add_comm 1 k]
      exact before.trans (.succ contracts after)

/-- No scrutinee is missing in a term without gaps. -/
theorem Term.Intact.lacksScrutinee {t stuck : Term} (intact : t.Intact)
    (found : t.firstStuck = some stuck) : stuck.lacksScrutinee = false := by
  obtain ⟨here, isStuck⟩ := intact.firstStuck found
  cases stuck with
  | caseOf type value name motive branches =>
      rw [Term.partsThere_eq rfl, List.all_eq_true] at here
      have there := here (0, value) (.tail _ (.head _))
      simpa [Term.lacksScrutinee] using there
  | _ => rfl

/-- Normalizing a term with fuel comes to an end, and rewrites the term by as many applications of rules
as steps are granted: at most as many as there is fuel, and all of them if the fuel runs out. A gap can
only have been met in a definition. -/
theorem normalize_inSteps (k : Kernel) (canceled : Bool) {t : Term} (fueled : 0 < k.fuel)
    (sound : t.sound = true) :
    ∃ u failure m count, k.normalize canceled t = (u, failure) ∧
      Run k.arith k.env [(true, t)] (Meter.start k.fuel canceled) [u] m ∧
      InSteps (Rewrites k.arith k.env) count t u ∧ (count : Int) ≤ k.fuel ∧
      (failure = some (.stopped .outOfFuel) → (count : Int) = k.fuel) ∧
      (failure = some (.stopped .gap) → ¬ k.env.Sound) := by
  generalize reduced : reduce k.arith k.env t (Meter.start k.fuel canceled) = outcome
  obtain ⟨u, m⟩ := outcome
  have run := reduce_iff.1 reduced
  obtain ⟨count, each, grants⟩ := run.inSteps
  have limit : ((Meter.start k.fuel canceled).limit : Int) = k.fuel := by
    simp only [Meter.start, if_pos fueled]
    omega
  have within := grants.within (Nat.zero_le _)
  have start : (Meter.start k.fuel canceled).steps = 0 := rfl
  have counted := EachInSteps.singleton.1 each
  obtain ⟨there, intact⟩ := Term.sound_iff.1 sound
  have smooth (defs : k.env.Sound) : u.Intact ∧ m.stopped ≠ some .gap := by
    obtain ⟨intact', unmet⟩ := run.no_gap defs
      (List.forall_mem_singleton.2 ⟨intact, fun _ => there⟩)
    refine ⟨(List.forall₂_cons.1 intact').1.1, fun met => ?_⟩
    cases unmet met
  obtain ⟨stop, stopped, eq⟩ | ⟨-, -, eq⟩ | ⟨-, stuck, found, ⟨lacks, eq⟩ | ⟨-, eq⟩⟩ :=
    Kernel.normalize_cases reduced
  · refine ⟨u, _, m, count, eq, run, counted, by omega, fun out => ?_, fun gap defs => ?_⟩
    · cases out
      have spent := grants.spent rfl (Nat.zero_le _) stopped
      omega
    · cases gap
      exact (smooth defs).2 stopped
  · exact ⟨u, _, m, count, eq, run, counted, by omega, by simp, by simp⟩
  · refine ⟨u, _, m, count, eq, run, counted, by omega, by simp, fun _ defs => ?_⟩
    rw [(smooth defs).1.lacksScrutinee found] at lacks
    cases lacks
  · exact ⟨u, _, m, count, eq, run, counted, by omega, by simp, by simp⟩

/-- A kernel in which `id` is the identity function, with fuel for three steps. -/
def identityKernel : Kernel where
  env name := if name = "id" then some (.lam false "x" .hole (.var 0)) else none
  fuel := 3

/-- In `(id (id Type))` the fuel allows for both references to be unfolded and for the inner function to
be applied. -/
theorem normalize_inSteps_identity :
    InSteps (Rewrites .word identityKernel.env) 3
      (.app false (.ref "id") (.app false (.ref "id") .univ))
      (.app false (.lam false "x" .hole (.var 0)) .univ) := by
  have outcome : identityKernel.normalize false
      (.app false (.ref "id") (.app false (.ref "id") .univ)) =
        (.app false (.lam false "x" .hole (.var 0)) .univ, some (.stopped .outOfFuel)) := by rfl
  obtain ⟨u, failure, m, count, eq, -, steps, -, spent, -⟩ :=
    normalize_inSteps identityKernel false (t := .app false (.ref "id") (.app false (.ref "id") .univ))
      (by decide) (by rfl)
  rw [outcome] at eq
  cases eq
  have all : count = 3 := Int.ofNat_inj.1 (spent rfl)
  rwa [all] at steps

end BoxCalculus
