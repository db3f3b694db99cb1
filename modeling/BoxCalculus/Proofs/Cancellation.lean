import BoxCalculus.Proofs.FuelThreshold

/-!
# Canceled calls

A run that has been canceled before it starts finds this out at its step 1024, where it looks for the
first time. Up to there it is the run that has not been canceled, and there it stops, as that one does
if its limit is 1023. So a canceled call under any limit is the call that is not canceled, under a limit
of at most 1023, and only the reason of a stop may be another one (`Run.whenCanceled`). One meter counts
the steps of a whole check, so the same holds of the checker (`Cut.judge`), and cancellation cuts each
call of the kernel off at the same place (`cancellation_cut`).
-/

namespace BoxCalculus

/-- The limit under which a run that is not canceled takes the steps that a canceled run takes. -/
def Meter.limitWhenCanceled (limit : Nat) : Nat :=
  min limit (Meter.pollInterval - 1)

/-- Why a canceled run under a limit stops where a run that is not canceled stops for the given
reason. -/
def Stop.whenCanceled (limit : Nat) : Stop → Stop
  | .outOfFuel => if limit < Meter.pollInterval then .outOfFuel else .canceled
  | stop => stop

/-- Why a canceled call under a limit fails where a call that is not canceled fails for the given
reason. -/
def Failure.whenCanceled (limit : Nat) : Failure → Failure
  | .stopped stop => .stopped (stop.whenCanceled limit)
  | failure => failure

/-- The meter of a canceled run under a limit that is where the given meter is. -/
def Meter.whenCanceled (limit : Nat) (m : Meter) : Meter :=
  ⟨limit, true, m.steps, m.stopped.map (Stop.whenCanceled limit)⟩

/-- The meter of a run that is not canceled, and takes the steps of a canceled run under the limit. -/
structure Meter.Foretells (limit : Nat) (m : Meter) : Prop where
  live : m.canceled = false
  bounded : m.limit = Meter.limitWhenCanceled limit
  within : m.stopped = none → m.steps ≤ m.limit

namespace Meter

variable {limit : Nat} {m m' : Meter}

/-- Asking for a term does the same to both meters. -/
theorem Foretells.need (foretells : m.Foretells limit) (t : Term) :
    (m.need t).Foretells limit ∧ (m.whenCanceled limit).need t = (m.need t).whenCanceled limit := by
  unfold Meter.need
  split
  · exact ⟨⟨foretells.live, foretells.bounded, fun going => by cases going⟩, rfl⟩
  · exact ⟨foretells, rfl⟩

/-- The step that is refused is the one behind the limit. It is refused to the canceled run as well,
by its own limit or because cancellation is looked for, and no step before it is. -/
theorem Foretells.fire {granted : Bool} (foretells : m.Foretells limit)
    (fire : m.fire = (granted, m')) :
    m'.Foretells limit ∧ (m.whenCanceled limit).fire = (granted, m'.whenCanceled limit) := by
  have bounded := foretells.bounded
  have within := foretells.within
  rw [limitWhenCanceled, pollInterval] at bounded
  obtain ⟨stopped, eq⟩ | ⟨going, out, eq⟩ | ⟨-, -, polls, -⟩ | ⟨going, inside, -, eq⟩ := m.fire_cases
  · rw [eq] at fire
    cases fire
    exact ⟨foretells, fire_stopped (by simpa [whenCanceled] using stopped)⟩
  · rw [eq] at fire
    cases fire
    have steps : m.steps = min limit 1023 := by
      have := within going
      omega
    refine ⟨⟨foretells.live, foretells.bounded, fun going => by cases going⟩, ?_⟩
    by_cases low : limit < 1024
    · have own : limit < m.steps + 1 := by omega
      simp [Meter.fire, whenCanceled, going, own, Stop.whenCanceled, pollInterval, low]
    · have own : ¬ limit < m.steps + 1 := by omega
      have looks : (m.steps + 1) % 1024 = 0 := by omega
      simp [Meter.fire, whenCanceled, going, own, Stop.whenCanceled, pollInterval, low, looks]
  · simp [Meter.polls, foretells.live] at polls
  · rw [eq] at fire
    cases fire
    refine ⟨⟨foretells.live, foretells.bounded, fun _ => inside⟩, ?_⟩
    have own : ¬ limit < m.steps + 1 := by omega
    have looks : ¬ (m.steps + 1) % 1024 = 0 := by omega
    simp [Meter.fire, whenCanceled, going, own, pollInterval, looks]

/-- The meters start together. -/
theorem foretells_upTo (limit : Nat) :
    (Meter.upTo (limitWhenCanceled limit) false).Foretells limit :=
  ⟨rfl, rfl, fun _ => Nat.zero_le _⟩

end Meter

variable {ar : Arith} {env : Env} {limit : Nat}

/-- A canceled run is the run that is not canceled, on another meter. -/
theorem Run.whenCanceled {jobs : List (Bool × Term)} {m m' : Meter} {us : List Term}
    (run : Run ar env jobs m us m') (foretells : m.Foretells limit) :
    Run ar env jobs (m.whenCanceled limit) us (m'.whenCanceled limit) ∧ m'.Foretells limit :=
  ⟨run.onMeters Meter.Foretells.need Meter.Foretells.fire foretells,
    run.keeps (fun foretells t => (Meter.Foretells.need foretells t).1)
      (fun foretells fire => (Meter.Foretells.fire foretells fire).1) foretells⟩

/-- A canceled reduction does what the other one does under the lower limit. -/
theorem reduce_whenCanceled {t u : Term} {m m' : Meter} (foretells : m.Foretells limit)
    (reduced : reduce ar env t m = (u, m')) :
    reduce ar env t (m.whenCanceled limit) = (u, m'.whenCanceled limit) ∧ m'.Foretells limit :=
  ((reduce_iff.1 reduced).whenCanceled foretells).imp reduce_iff.2 id

/-- The outcome of a computation, as it is when the call has been canceled. -/
def Checking.outcomeWhenCanceled (limit : Nat) :
    Except Failure (α × Meter) → Except Failure (α × Meter)
  | .ok (a, m) => .ok (a, m.whenCanceled limit)
  | .error e => .error (e.whenCanceled limit)

/-- `Cut limit x` says that `x`, in a call that has been canceled, does what it does in one that is not
canceled and takes at most 1023 steps. -/
structure Cut (limit : Nat) (x : Checking α) : Prop where
  foretells : ∀ {m a m'}, m.Foretells limit → x m = .ok (a, m') → m'.Foretells limit
  whenCanceled : ∀ {m}, m.Foretells limit →
    x (m.whenCanceled limit) = Checking.outcomeWhenCanceled limit (x m)

namespace Cut

/-- A result is the same in a canceled call. -/
theorem pure (a : α) : Cut limit (Pure.pure a : Checking α) where
  foretells := by
    intro m b m' foretells out
    cases out
    exact foretells
  whenCanceled := fun _ => rfl

/-- A type error is the same in a canceled call. -/
theorem fail (e : TypeError) : Cut limit (Checking.fail e : Checking α) where
  foretells := by
    intro m a m' _ out
    cases out
  whenCanceled := fun _ => rfl

/-- That there is nothing to infer is the same in a canceled call. -/
theorem nothing : Cut limit (throw .nothingToInfer : Checking α) where
  foretells := by
    intro m a m' _ out
    cases out
  whenCanceled := fun _ => rfl

/-- Computations that are cut one after the other are cut. -/
theorem bind {x : Checking α} {f : α → Checking β} (first : Cut limit x) (next : ∀ a, Cut limit (f a)) :
    Cut limit (x >>= f) where
  foretells := by
    intro m b m' foretells out
    obtain ⟨a, m₁, out₁, out⟩ := Checking.bind_ok out
    exact (next a).foretells (first.foretells foretells out₁) out
  whenCanceled := by
    intro m foretells
    rw [Checking.bind_apply, Checking.bind_apply, first.whenCanceled foretells]
    cases eq : x m with
    | error e => rfl
    | ok out => exact (next out.1).whenCanceled (first.foretells foretells eq)

/-- A reduction in the checker is cut. -/
theorem normal (ar : Arith) (env : Env) (t : Term) : Cut limit (normal ar env t) where
  foretells := by
    intro m u m' foretells out
    exact ((normal_ok_iff.1 out).1.whenCanceled foretells).2
  whenCanceled := by
    intro m foretells
    unfold BoxCalculus.normal
    generalize reduced : reduce ar env t m = result
    obtain ⟨u, m'⟩ := result
    rw [(reduce_whenCanceled foretells reduced).1]
    cases stopped : m'.stopped with
    | none => simp [Meter.whenCanceled, stopped, Checking.outcomeWhenCanceled]
    | some stop =>
        simp [Meter.whenCanceled, stopped, Checking.outcomeWhenCanceled, Failure.whenCanceled]

/-- Being cut is kept by all that the checker puts together. -/
theorem sequenced (ar : Arith) (env : Env) : Sequenced ar env (Cut limit) where
  pure := pure
  fail := fail
  nothing := nothing
  bind := bind
  normal := normal ar env

/-- Checking a term is cut off. -/
theorem judge (t : Term) (ctx : Context) (mode : Mode) : Cut limit (t.judge ar env ctx mode) :=
  (sequenced ar env).judge t ctx mode

/-- A canceled call is the call under the lower limit, up to the reason of a stop. -/
theorem run' {x : Checking α} (cut : Cut limit x) : x.run' (Meter.upTo limit true) =
    (x.run' (Meter.upTo (Meter.limitWhenCanceled limit) false)).mapError
      (Failure.whenCanceled limit) := by
  have same := cut.whenCanceled (Meter.foretells_upTo limit)
  change x (Meter.upTo limit true) = _ at same
  simp only [StateT.run', same, Functor.map]
  cases x (Meter.upTo (Meter.limitWhenCanceled limit) false) <;> rfl

end Cut

/-- Normalizing in a canceled call is normalizing under the lower limit. -/
theorem Kernel.normalizeWithin_whenCanceled (k : Kernel) (t : Term) (limit : Nat) :
    k.normalizeWithin true t limit =
      (k.normalizeWithin false t (Meter.limitWhenCanceled limit)).map id
        (Option.map (Failure.whenCanceled limit)) := by
  generalize reduced : reduce k.arith k.env t (Meter.upTo (Meter.limitWhenCanceled limit) false) = result
  obtain ⟨u, m⟩ := result
  have same := (reduce_whenCanceled (Meter.foretells_upTo limit) reduced).1
  change reduce k.arith k.env t (Meter.upTo limit true) = _ at same
  unfold normalizeWithin
  rw [same, reduced]
  cases stopped : m.stopped with
  | some stop => simp [Meter.whenCanceled, stopped, Failure.whenCanceled]
  | none =>
      simp only [Meter.whenCanceled, stopped, Option.map_none]
      cases u.firstStuck with
      | none => rfl
      | some stuck =>
          dsimp only
          split <;> rfl

/-- The failure with cancellation in place of fuel. -/
def Failure.interrupted : Failure → Failure
  | .stopped .outOfFuel => .stopped .canceled
  | failure => failure

/-- Under a low limit the reason of a failure is the same. -/
theorem Failure.whenCanceled_low (low : limit ≤ 1023) : Failure.whenCanceled limit = id := by
  have below : limit < 1024 := by omega
  funext failure
  cases failure with
  | stopped stop => cases stop <;> simp [whenCanceled, Stop.whenCanceled, Meter.pollInterval, below]
  | _ => rfl

/-- Under a high limit cancellation takes the place of fuel. -/
theorem Failure.whenCanceled_high (high : 1024 ≤ limit) :
    Failure.whenCanceled limit = Failure.interrupted := by
  have above : ¬ limit < 1024 := by omega
  funext failure
  cases failure with
  | stopped stop =>
      cases stop <;> simp [whenCanceled, Stop.whenCanceled, interrupted, Meter.pollInterval, above]
  | _ => rfl

/-- A low limit is reached before cancellation is noticed. -/
theorem Meter.limitWhenCanceled_low (low : limit ≤ 1023) : limitWhenCanceled limit = limit :=
  Nat.min_eq_left low

/-- Under a high limit cancellation is noticed after 1023 steps. -/
theorem Meter.limitWhenCanceled_high (high : 1024 ≤ limit) : limitWhenCanceled limit = 1023 :=
  Nat.min_eq_right (Nat.le_of_succ_le high)

/-- A failure with cancellation in place of fuel is not for lack of fuel. -/
theorem Failure.interrupted_ne (failure : Failure) :
    failure.interrupted ≠ .stopped .outOfFuel := by
  cases failure with
  | stopped stop => cases stop <;> simp [interrupted]
  | _ => simp [interrupted]

/-- `CutOff failure? change call` says what cancellation does to a call, where `change f` is what `f`
does to the failure in an outcome. -/
structure CutOff (failure? : α → Option Failure) (change : (Failure → Failure) → α → α)
    (call : Bool → Int → α) : Prop where
  early : ∀ n, 1 ≤ n ∧ n ≤ 1023 → call true n = call false n
  late : ∀ n, n ≤ 0 ∨ 1024 ≤ n → call true n = change Failure.interrupted (call false 1023)
  ends : ∀ threshold, FuelThreshold failure? (call true) threshold → threshold ≤ 1024

/-- A call is cut off if under each limit cancellation has the effect of the lower limit. -/
theorem cutOff_of_within {failure? : α → Option Failure} {change : (Failure → Failure) → α → α}
    {call : Bool → Int → α} (within : Bool → Nat → α)
    (limited : ∀ canceled n,
      call canceled n = within canceled (if 0 < n then n.toNat else Meter.unbounded))
    (cut : ∀ limit, within true limit =
      change (Failure.whenCanceled limit) (within false (Meter.limitWhenCanceled limit)))
    (unchanged : ∀ a, change id a = a)
    (changed : ∀ f a, failure? (change f a) = (failure? a).map f) :
    CutOff failure? change call := by
  have late (n : Int) (far : n ≤ 0 ∨ 1024 ≤ n) :
      call true n = change Failure.interrupted (call false 1023) := by
    have high : 1024 ≤ if 0 < n then n.toNat else Meter.unbounded := by
      rw [Meter.unbounded]
      split <;> omega
    rw [limited, cut, Failure.whenCanceled_high high, Meter.limitWhenCanceled_high high, limited]
    rfl
  refine ⟨fun n near => ?_, late, fun threshold is => ?_⟩
  · have low : (if 0 < n then n.toNat else Meter.unbounded) ≤ 1023 := by
      rw [if_pos (by omega)]
      omega
    rw [limited, cut, Failure.whenCanceled_low low, Meter.limitWhenCanceled_low low, unchanged, limited]
  · have going : failure? (call true 1024) ≠ some (.stopped .outOfFuel) := by
      rw [late 1024 (.inr (by decide)), changed]
      cases failure? (call false 1023) with
      | none => simp
      | some failure => simpa using failure.interrupted_ne
    rw [ne_eq, is.runsOut 1024 (by decide), not_lt] at going
    exact going

/-- A computation that is cut under all limits is cut off by cancellation. -/
theorem Cut.cutOff {x : Checking α} (cut : ∀ limit, Cut limit x) :
    CutOff failureOf Except.mapError fun canceled n => x.run' (Meter.start n canceled) := by
  refine cutOff_of_within (fun canceled limit => x.run' (Meter.upTo limit canceled))
    (fun canceled n => rfl) (fun limit => (cut limit).run') (fun out => ?_) (fun f out => ?_)
  all_goals cases out <;> rfl

/-- Calls that have been canceled before they start. With fuel 1 to 1023 the outcome is that of the
call that is not canceled. With more fuel, or none that bounds it, the outcome is that of the call that
is not canceled and has fuel 1023, with cancellation in place of fuel as the reason of a stop. So the
call never takes more than 1024 steps: it runs out of fuel at most if it has less than that. -/
theorem cancellation_cut (k : Kernel) (t type : Term) (ctx : Context) :
    (1 ≤ k.fuel ∧ k.fuel ≤ 1023 →
      k.normalize true t = k.normalize false t ∧
      k.inferIn true t ctx = k.inferIn false t ctx ∧
      k.check true t type = k.check false t type) ∧
    (k.fuel ≤ 0 ∨ 1024 ≤ k.fuel →
      k.normalize true t =
        ({ k with fuel := 1023 }.normalize false t).map id (Option.map Failure.interrupted) ∧
      k.inferIn true t ctx =
        ({ k with fuel := 1023 }.inferIn false t ctx).mapError Failure.interrupted ∧
      k.check true t type =
        ({ k with fuel := 1023 }.check false t type).mapError Failure.interrupted) ∧
    (∃ threshold ≤ 1024, FuelThreshold Prod.snd
      (fun n => { k with fuel := n }.normalize true t) threshold) ∧
    (∃ threshold ≤ 1024, FuelThreshold failureOf
      (fun n => { k with fuel := n }.inferIn true t ctx) threshold) ∧
    (∃ threshold ≤ 1024, FuelThreshold failureOf
      (fun n => { k with fuel := n }.check true t type) threshold) := by
  have judges (mode : Mode) (ctx : Context) (limit : Nat) :
      Cut limit (t.judge k.arith k.env ctx mode) := Cut.judge t ctx mode
  have infers := Cut.cutOff (judges .infer ctx)
  have checks := Cut.cutOff fun limit =>
    (judges (.against type) .empty limit).bind fun _ => Cut.pure ()
  have normalizes : CutOff Prod.snd (fun f => Prod.map id (Option.map f))
      fun canceled n => { k with fuel := n }.normalize canceled t :=
    cutOff_of_within (fun canceled limit => k.normalizeWithin canceled t limit) (fun canceled n => rfl)
      (k.normalizeWithin_whenCanceled t) (fun out => by simp) fun f out => rfl
  refine ⟨fun near => ⟨normalizes.early _ near, infers.early _ near, checks.early _ near⟩,
    fun far => ⟨normalizes.late _ far, infers.late _ far, checks.late _ far⟩, ?_, ?_, ?_⟩
  · obtain ⟨threshold, is⟩ := exists_threshold (k.normalizeWithin true t) (fun n => rfl)
      fun a b => Kernel.normalizeWithin_stable
    exact ⟨threshold, normalizes.ends threshold is, is⟩
  · obtain ⟨threshold, is⟩ := (Steady.judge t ctx .infer).exists_threshold true
    exact ⟨threshold, infers.ends threshold is, is⟩
  · obtain ⟨threshold, is⟩ :=
      ((Steady.judge t .empty (.against type)).bind fun _ => Steady.pure ()).exists_threshold true
    exact ⟨threshold, checks.ends threshold is, is⟩

/-- Half of a term that is reduced to itself. -/
def twice : Term :=
  .lam false "x" .univ (.app false (.var 0) (.var 0))

/-- A term whose reduction does not come to an end. With fuel 1023 a canceled call runs out of it like
any other, and without fuel it is canceled in the same place. -/
theorem cancellation_cut_twice :
    (⟨.word, .empty, 1023⟩ : Kernel).normalize true (.app false twice twice) =
      (⟨.word, .empty, 1023⟩ : Kernel).normalize false (.app false twice twice) ∧
    (⟨.word, .empty, 0⟩ : Kernel).normalize true (.app false twice twice) =
      ((⟨.word, .empty, 1023⟩ : Kernel).normalize false (.app false twice twice)).map id
        (Option.map Failure.interrupted) ∧
    ((⟨.word, .empty, 0⟩ : Kernel).normalize true (.app false twice twice)).2.bind Failure.message? =
      some "context canceled" := by
  have near := (cancellation_cut ⟨.word, .empty, 1023⟩ (.app false twice twice) .univ .empty).1
    ⟨by decide, by decide⟩
  have far := (cancellation_cut ⟨.word, .empty, 0⟩ (.app false twice twice) .univ .empty).2.1
    (.inl (by decide))
  refine ⟨near.1, far.1, ?_⟩
  rw [far.1]
  decide +kernel

end BoxCalculus
