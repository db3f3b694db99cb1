import BoxCalculus.Kernel
import BoxCalculus.Proofs.Limits
import BoxCalculus.Proofs.Sequencing
import Mathlib.Data.ENat.Basic

/-!
# Fuel never changes a verdict

Every call of the kernel has a threshold: with less fuel it runs out, and with that much fuel or more,
or with no bound at all, its outcome is always the same one (`fuel_threshold`).

`Steady x` says that a computation of the checker ends in the same way under every higher limit,
unless it has run out of fuel. Sequencing keeps this, so it holds of the checker because it holds of
its reductions.
-/

namespace BoxCalculus

/-- The meter of a computation that goes on. -/
def Meter.Ready (m : Meter) : Prop :=
  m.Honest ∧ m.stopped = none

/-- `Steady x` says that `x` leaves a meter with which the computation can go on, ends in the same way
under every higher limit unless it has run out of fuel, and does not cancel anything. -/
structure Steady (x : Checking α) : Prop where
  ready : ∀ {m a m'}, m.Ready → x m = .ok (a, m') → m'.Ready ∧ m'.limit = m.limit
  withLimit : ∀ {m limit}, m.Ready → m.limit ≤ limit → x m ≠ .error (.stopped .outOfFuel) →
    x (m.withLimit limit) = (x m).map fun out => (out.1, out.2.withLimit limit)
  undisturbed : ∀ {m a m'}, m.Undisturbed → x m = .ok (a, m') → m'.Undisturbed

/-- If both computations have succeeded, then each of them has. -/
theorem Checking.bind_ok {x : Checking α} {f : α → Checking β} {m m' : Meter} {b : β}
    (out : (x >>= f) m = .ok (b, m')) : ∃ a m₁, x m = .ok (a, m₁) ∧ f a m₁ = .ok (b, m') := by
  rw [Checking.bind_apply] at out
  split at out
  · cases out
  · rename_i out₁ eq
    exact ⟨out₁.1, out₁.2, eq, out⟩

/-- A result without the meter is one with some meter. -/
theorem Checking.ok_of_run' {x : Checking α} {m : Meter} {a : α} (ok : x.run' m = .ok a) :
    ∃ m', x m = .ok (a, m') := by
  simp only [StateT.run', Functor.map] at ok
  cases out : x m with
  | error e => simp [out, Except.map] at ok
  | ok result =>
      obtain rfl : result.1 = a := by simpa [out, Except.map] using ok
      exact ⟨result.2, rfl⟩

/-- A failure leaves no meter. -/
theorem Checking.error_of_run' {x : Checking α} {m : Meter} {e : Failure}
    (failed : x.run' m = .error e) : x m = .error e := by
  simp only [StateT.run', Functor.map] at failed
  cases out : x m with
  | error e' => simpa [out, Except.map] using failed
  | ok result => simp [out, Except.map] at failed

/-- The normal form of a term is what a run leaves that has not stopped. -/
theorem normal_ok_iff {ar : Arith} {env : Env} {t u : Term} {m m' : Meter} :
    normal ar env t m = .ok (u, m') ↔ Run ar env [(true, t)] m [u] m' ∧ m'.stopped = none := by
  rw [← reduce_iff, normal]
  generalize reduce ar env t m = result
  obtain ⟨nf, m₁⟩ := result
  cases stopped : m₁.stopped with
  | some stop =>
      simp only [stopped, reduceCtorEq, Prod.mk.injEq, false_iff]
      rintro ⟨⟨-, rfl⟩, going⟩
      cases stopped.symm.trans going
  | none =>
      simp only [stopped, Except.ok.injEq, Prod.mk.injEq]
      refine ⟨fun same => ⟨same, same.2 ▸ stopped⟩, And.left⟩

/-- A reduction that fails has been stopped. -/
theorem normal_error {ar : Arith} {env : Env} {t : Term} {m : Meter} {e : Failure}
    (failed : normal ar env t m = .error e) :
    ∃ u m' stop, Run ar env [(true, t)] m [u] m' ∧ m'.stopped = some stop ∧ e = .stopped stop := by
  generalize reduced : reduce ar env t m = result
  obtain ⟨u, m'⟩ := result
  rw [normal, reduced] at failed
  cases stopped : m'.stopped with
  | none => simp [stopped] at failed
  | some stop =>
      simp only [stopped, Except.error.injEq] at failed
      exact ⟨u, m', stop, reduce_iff.1 reduced, stopped, failed.symm⟩

namespace Steady

/-- A result is steady. -/
theorem pure (a : α) : Steady (Pure.pure a : Checking α) where
  ready := by
    intro m b m' ready out
    cases out
    exact ⟨ready, rfl⟩
  withLimit := fun _ _ _ => rfl
  undisturbed := by
    intro m b m' undisturbed out
    cases out
    exact undisturbed

/-- A failure is steady. -/
theorem throw (e : Failure) : Steady (throw e : Checking α) where
  ready := by
    intro m b m' _ out
    cases out
  withLimit := fun _ _ _ => rfl
  undisturbed := by
    intro m b m' _ out
    cases out

/-- Steady computations one after the other are steady. -/
theorem bind {x : Checking α} {f : α → Checking β} (first : Steady x) (next : ∀ a, Steady (f a)) :
    Steady (x >>= f) where
  ready := by
    intro m b m' ready out
    obtain ⟨a, m₁, out₁, out⟩ := Checking.bind_ok out
    obtain ⟨ready₁, limit₁⟩ := first.ready ready out₁
    obtain ⟨ready', limit'⟩ := (next a).ready ready₁ out
    exact ⟨ready', limit'.trans limit₁⟩
  withLimit := by
    intro m limit ready higher going
    rw [Checking.bind_apply] at going ⊢
    rw [Checking.bind_apply]
    cases eq : x m with
    | error e =>
        rw [eq] at going
        have same := first.withLimit ready higher (by simpa [eq] using going)
        rw [same, eq]
        rfl
    | ok out =>
        rw [eq] at going
        have same := first.withLimit ready higher (by simp [eq])
        obtain ⟨ready₁, limit₁⟩ := first.ready ready eq
        rw [same, eq]
        exact (next out.1).withLimit ready₁ (by rwa [limit₁]) going
  undisturbed := by
    intro m b m' undisturbed out
    obtain ⟨a, m₁, out₁, out⟩ := Checking.bind_ok out
    exact (next a).undisturbed (first.undisturbed undisturbed out₁) out

/-- A reduction in the checker is steady. -/
theorem normal (ar : Arith) (env : Env) (t : Term) : Steady (normal ar env t) where
  ready := by
    intro m u m' ready out
    obtain ⟨run, going⟩ := normal_ok_iff.1 out
    exact ⟨⟨run.honest ready.1, going⟩, run.limit_eq⟩
  withLimit := by
    intro m limit ready higher going
    unfold BoxCalculus.normal at going ⊢
    generalize reduced : reduce ar env t m = result at going ⊢
    obtain ⟨nf, m'⟩ := result
    rcases reduce_withLimit _ ready.1 higher reduced with out | ⟨gap, gap'⟩ | ⟨-, same⟩
    · simp [out] at going
    · simp only [gap, gap', Except.map]
    · rw [same]
      cases stopped : m'.stopped with
      | some stop => simp [stopped, Meter.withLimit, Except.map]
      | none => simp [stopped, Meter.withLimit, Except.map]
  undisturbed := fun undisturbed out => (normal_ok_iff.1 out).1.undisturbed undisturbed

/-- Steadiness is kept by all that the checker puts together. -/
theorem sequenced (ar : Arith) (env : Env) : Sequenced ar env Steady where
  pure := pure
  fail e := throw (.typing e)
  nothing := throw .nothingToInfer
  bind := bind
  normal := normal ar env

/-- Checking a term is steady. -/
theorem judge {ar : Arith} {env : Env} (t : Term) (ctx : Context) (mode : Mode) :
    Steady (t.judge ar env ctx mode) :=
  (sequenced ar env).judge t ctx mode

end Steady

/-- `FuelThreshold failure? call s` says that `call` with positive fuel runs out exactly if the fuel is
less than `s`, and that otherwise all its outcomes are the same: two calls that do not run out give the
same, or both meet a gap and give nothing. A call that no fuel bounds is given up only if it takes
more steps than any run can take. -/
structure FuelThreshold (failure? : α → Option Failure) (call : Int → α) (threshold : ℕ∞) : Prop where
  runsOut : ∀ n, 0 < n →
    (failure? (call n) = some (.stopped .outOfFuel) ↔ (n.toNat : ℕ∞) < threshold)
  endless : ∀ n ≤ 0,
    (failure? (call n) = some (.stopped .outOfFuel) ↔ (Meter.unbounded : ℕ∞) < threshold)
  same : ∀ n n', failure? (call n) ≠ some (.stopped .outOfFuel) →
    failure? (call n') ≠ some (.stopped .outOfFuel) →
    call n = call n' ∨
      failure? (call n) = some (.stopped .gap) ∧ failure? (call n') = some (.stopped .gap)

/-- A call that ends in the same way under every higher limit, unless it runs out, has a threshold. -/
theorem exists_threshold {failure? : α → Option Failure} {call : Int → α} (within : Nat → α)
    (limited : ∀ n, call n = within (if 0 < n then n.toNat else Meter.unbounded))
    (stable : ∀ a b, a ≤ b → failure? (within a) ≠ some (.stopped .outOfFuel) →
      within a = within b ∨
        failure? (within a) = some (.stopped .gap) ∧ failure? (within b) = some (.stopped .gap)) :
    ∃ threshold, FuelThreshold failure? call threshold := by
  have downward : ∀ a b, a ≤ b → failure? (within b) = some (.stopped .outOfFuel) →
      failure? (within a) = some (.stopped .outOfFuel) := by
    intro a b le out
    by_contra going
    rcases stable a b le going with same | ⟨-, gap⟩
    · rw [same] at going
      exact going out
    · rw [gap] at out
      cases out
  obtain ⟨threshold, runsOut⟩ : ∃ threshold : ℕ∞, ∀ a : Nat,
      failure? (within a) = some (.stopped .outOfFuel) ↔ (a : ℕ∞) < threshold := by
    classical
    by_cases ends : ∃ a, failure? (within a) ≠ some (.stopped .outOfFuel)
    · refine ⟨(Nat.find ends : Nat), fun a => ?_⟩
      rw [Nat.cast_lt]
      constructor
      · intro out
        by_contra high
        exact Nat.find_spec ends (downward _ a (Nat.le_of_not_lt high) out)
      · intro low
        by_contra going
        exact Nat.find_min ends low going
    · simp only [not_exists, ne_eq, not_not] at ends
      exact ⟨⊤, fun a => ⟨fun _ => ENat.natCast_lt_top a, fun _ => ends a⟩⟩
  refine ⟨threshold, ⟨fun n positive => ?_, fun n nonpositive => ?_, fun n n' going going' => ?_⟩⟩
  · rw [limited, if_pos positive]
    exact runsOut _
  · rw [limited, if_neg (Int.not_lt.2 nonpositive)]
    exact runsOut _
  · rw [limited] at going going' ⊢
    rw [limited n']
    rcases Nat.le_total (if 0 < n then n.toNat else Meter.unbounded)
      (if 0 < n' then n'.toNat else Meter.unbounded) with le | le
    · exact stable _ _ le going
    · exact (stable _ _ le going').imp Eq.symm And.symm

/-- The failure of a check, if it has failed. -/
def failureOf : Except Failure α → Option Failure
  | .ok _ => none
  | .error e => some e

/-- The meter of a call under a limit. -/
def Meter.upTo (limit : Nat) (canceled : Bool) : Meter :=
  ⟨limit, canceled, 0, none⟩

/-- A call starts on a meter that is ready. -/
theorem Meter.ready_upTo (limit : Nat) (canceled : Bool) : (Meter.upTo limit canceled).Ready := by
  simp [Meter.Ready, Meter.Honest, Meter.upTo]

/-- A steady computation has a threshold. -/
theorem Steady.exists_threshold {x : Checking α} (steady : Steady x) (canceled : Bool) :
    ∃ threshold, FuelThreshold failureOf (fun n => x.run' (Meter.start n canceled)) threshold := by
  refine BoxCalculus.exists_threshold (fun limit => x.run' (Meter.upTo limit canceled)) (fun n => rfl)
    fun a b le going => .inl ?_
  have going' : x (Meter.upTo a canceled) ≠ .error (.stopped .outOfFuel) := by
    intro out
    exact going (by simp [StateT.run', out, failureOf, Functor.map, Except.map])
  have higher : (Meter.upTo a canceled).limit ≤ b := le
  have same := steady.withLimit (Meter.ready_upTo a canceled) higher going'
  change x (Meter.upTo b canceled) = _ at same
  simp only [StateT.run', same, Functor.map]
  cases x (Meter.upTo a canceled) <;> rfl

/-- Normalizing under a limit. -/
def Kernel.normalizeWithin (k : Kernel) (canceled : Bool) (t : Term) (limit : Nat) :
    Term × Option Failure :=
  let (nf, m) := reduce k.arith k.env t (Meter.upTo limit canceled)
  match m.stopped with
  | some stop => (nf, some (.stopped stop))
  | none =>
      match nf.firstStuck with
      | none => (nf, none)
      | some stuck =>
          if stuck.lacksScrutinee then (nf, some (.stopped .gap))
          else (nf, some (.typing (.about .stuckReduction stuck Context.empty)))

/-- Under a higher limit the outcome is the same, or both calls have met a gap. -/
theorem Kernel.normalizeWithin_stable {k : Kernel} {canceled : Bool} {t : Term} {a b : Nat} (le : a ≤ b)
    (going : (k.normalizeWithin canceled t a).2 ≠ some (.stopped .outOfFuel)) :
    k.normalizeWithin canceled t a = k.normalizeWithin canceled t b ∨
      (k.normalizeWithin canceled t a).2 = some (.stopped .gap) ∧
        (k.normalizeWithin canceled t b).2 = some (.stopped .gap) := by
  have ready := Meter.ready_upTo a canceled
  generalize reduced : reduce k.arith k.env t (Meter.upTo a canceled) = result
  obtain ⟨nf, m⟩ := result
  rcases reduce_withLimit b ready.1 le reduced with out | ⟨gap, gap'⟩ | ⟨-, same⟩
  · simp [Kernel.normalizeWithin, reduced, out] at going
  · change (reduce k.arith k.env t (Meter.upTo b canceled)).2.stopped = some .gap at gap'
    simp [Kernel.normalizeWithin, reduced, gap, gap']
  · change reduce k.arith k.env t (Meter.upTo b canceled) = _ at same
    exact .inl (by simp [Kernel.normalizeWithin, reduced, same, Meter.withLimit])

/-- Normalizing, inferring in a context and checking each have a threshold. -/
theorem fuel_threshold (k : Kernel) (canceled : Bool) (t type : Term) (ctx : Context) :
    (∃ threshold, FuelThreshold Prod.snd
      (fun n => { k with fuel := n }.normalize canceled t) threshold) ∧
    (∃ threshold, FuelThreshold failureOf
      (fun n => { k with fuel := n }.inferIn canceled t ctx) threshold) ∧
    (∃ threshold, FuelThreshold failureOf
      (fun n => { k with fuel := n }.check canceled t type) threshold) := by
  have judges (ctx : Context) (mode : Mode) : Steady (t.judge k.arith k.env ctx mode) :=
    Steady.judge t ctx mode
  have infers := judges ctx .infer
  have checks := (judges .empty (.against type)).bind fun _ => Steady.pure ()
  exact ⟨exists_threshold (k.normalizeWithin canceled t) (fun n => rfl)
      fun a b => Kernel.normalizeWithin_stable,
    infers.exists_threshold canceled, checks.exists_threshold canceled⟩

end BoxCalculus
