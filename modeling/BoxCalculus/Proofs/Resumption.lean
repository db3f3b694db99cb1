import BoxCalculus.Proofs.Settled
import BoxCalculus.Proofs.Stuck
import BoxCalculus.Proofs.UniqueNormalForms

/-!
# Resuming a reduction

A reduction that runs out of fuel leaves a partly reduced term. What has been reduced in it is settled,
and what has not is as it was, so reducing it goes on where the first reduction has stopped: it fires
the same rules in the same order (`Run.resume`). Normalizing with fuel `n` and then with fuel `m` is
normalizing with fuel `n + m` (`normalize_resume`). A reduction that comes back to its term goes on for
ever (`reduce_outOfFuel`).
-/

namespace BoxCalculus

/-- The meter as it would be after `d` more steps, with a limit that is higher by as much. -/
def Meter.after (m : Meter) (d : Nat) : Meter :=
  { m with limit := m.limit + d, steps := m.steps + d }

/-- Asking for a term does not look at the count. -/
theorem Meter.need_after (m : Meter) (d : Nat) (t : Term) : (m.after d).need t = (m.need t).after d := by
  unfold Meter.need
  split <;> rfl

/-- The steps before do not matter to a run that is not canceled. -/
theorem Meter.fire_after {m m' : Meter} {granted : Bool} (d : Nat) (runs : m.canceled = false)
    (fire : m.fire = (granted, m')) : (m.after d).fire = (granted, m'.after d) := by
  have steps : m.steps + d + 1 = m.steps + 1 + d := Nat.add_right_comm ..
  have quiet : (m.after d).polls = false := by simp only [Meter.polls, Meter.after, runs, Bool.false_and]
  obtain ⟨stopped, eq⟩ | ⟨going, out, eq⟩ | ⟨-, -, polls, -⟩ | ⟨going, within, -, eq⟩ := m.fire_cases
  · rw [eq] at fire
    cases fire
    exact Meter.fire_stopped stopped
  · rw [eq] at fire
    cases fire
    obtain ⟨stopped, -⟩ | ⟨-, -, eq'⟩ | ⟨-, within, -, -⟩ | ⟨-, within, -, -⟩ := (m.after d).fire_cases
    · simp [Meter.after, going] at stopped
    · rw [eq', Meter.after, Meter.after, steps]
    all_goals exact absurd (Nat.lt_of_add_lt_add_right within) (Nat.not_lt.2 out)
  · simp [Meter.polls, runs] at polls
  · rw [eq] at fire
    cases fire
    obtain ⟨stopped, -⟩ | ⟨-, out, -⟩ | ⟨-, -, polls, -⟩ | ⟨-, -, -, eq'⟩ := (m.after d).fire_cases
    · simp [Meter.after, going] at stopped
    · exact absurd (Nat.le_of_add_le_add_right out) (Nat.not_le.2 within)
    · rw [quiet] at polls
      cases polls
    · rw [eq', Meter.after, Meter.after, steps]

/-- A step does not cancel anything. -/
theorem Meter.canceled_of_fire {m m' : Meter} {granted : Bool} (fire : m.fire = (granted, m')) :
    m'.canceled = m.canceled := by
  obtain ⟨-, eq⟩ | ⟨-, -, eq⟩ | ⟨-, -, -, eq⟩ | ⟨-, -, -, eq⟩ := m.fire_cases
  all_goals
    rw [eq] at fire
    cases fire
    rfl

/-- A run that is not canceled is refused a step at its limit only. -/
theorem Meter.limit_le_of_refused {m m' : Meter} (refused : m.fire = (false, m'))
    (going : m.stopped = none) (runs : m.canceled = false) : m.limit ≤ m.steps := by
  obtain ⟨stopped, -⟩ | ⟨-, out, -⟩ | ⟨-, -, polls, -⟩ | ⟨-, -, -, eq⟩ := m.fire_cases
  · simp [going] at stopped
  · exact out
  · simp [Meter.polls, runs] at polls
  · rw [eq] at refused
    cases refused

namespace Run

variable {ar : Arith} {env : Env} {jobs : List (Bool × Term)} {m m' : Meter} {us : List Term}

/-- A run does not cancel anything. -/
theorem canceled_eq (run : Run ar env jobs m us m') : m'.canceled = m.canceled := by
  refine run.keeps (P := fun after => after.canceled = m.canceled) (fun same t => ?_)
    (fun same fire => ?_) rfl
  · rw [Meter.need]
    split <;> exact same
  · rw [Meter.canceled_of_fire fire, same]

/-- The steps before do not matter to a run that is not canceled. -/
theorem after (d : Nat) (run : Run ar env jobs m us m') (runs : m.canceled = false) :
    Run ar env jobs (m.after d) us (m'.after d) := by
  refine run.onMeters (P := fun m => m.canceled = false) (f := fun m => m.after d)
    (fun runs t => ⟨?_, Meter.need_after ..⟩)
    (fun runs fire => ⟨(Meter.canceled_of_fire fire).trans runs, Meter.fire_after d runs fire⟩) runs
  unfold Meter.need
  split <;> exact runs

/-- A run that has been stopped and has run out of fuel had done so before. -/
theorem outOfFuel_before (run : Run ar env jobs m us m') (stopped : m.stopped.isSome = true)
    (out : m'.stopped = some .outOfFuel) : m.stopped = some .outOfFuel := by
  rcases (run.of_stopped stopped).2 with same | gap
  · rw [← same, out]
  · rw [out] at gap
    cases gap

/-- A term whose jobs have been replaced twice. -/
theorem withParts_again {t : Term} {ps qs vs ws : List Term} (early : ps.length = t.early.length)
    (late : qs.length = t.late.length) (early' : vs.length = t.early.length)
    (late' : ws.length = t.late.length) :
    (t.withParts (ps ++ qs)).withParts (vs ++ ws) = t.withParts (vs ++ ws) :=
  Term.withParts_withParts _ (Term.length_jobs early late) (Term.length_jobs early' late')

/-- Two terms whose first parts have been reduced to the same terms, on meters that differ only by
steps before, and whose last parts are the same, are reduced to the same term. -/
theorem complete {t : Term} {ps vs : List Term} {a c c₁ : Meter} {d : Nat}
    (count : ps.length = t.early.length) (early : Run ar env (retarget t.early ps) c vs c₁)
    (early' : Run ar env t.early a vs (c₁.after d)) (runs : c₁.canceled = false) :
    ∃ w c', Run ar env [(false, t.withParts (ps ++ t.late.map Prod.snd))] c [w] c' ∧
      Run ar env [(false, t)] a [w] (c'.after d) := by
  obtain ⟨first, last⟩ := Term.jobs_withParts count (by simp : (t.late.map Prod.snd).length = _)
  rw [retarget_self] at last
  rw [← first] at early
  have again {qs : List Term} (same : qs.length = t.late.length) :
      (t.withParts (ps ++ t.late.map Prod.snd)).withParts (vs ++ qs) = t.withParts (vs ++ qs) :=
    withParts_again count (by simp) early'.length_eq same
  cases rule : (t.withParts (vs ++ t.late.map Prod.snd)).contract? ar env with
  | none =>
      obtain ⟨qs, c', late⟩ := run_total ar env t.late c₁
      refine ⟨t.withParts (vs ++ qs), c', ?_, .stay _ _ _ _ _ _ early' rule (late.after d runs)⟩
      rw [← again late.length_eq]
      exact .stay _ _ _ _ _ _ early (by rw [last, again (by simp), rule]) (by rwa [last])
  | some r =>
      match fire : c₁.fire with
      | (false, c₂) =>
          obtain ⟨qs, c', late⟩ := run_total ar env t.late c₂
          have late' := late.after d ((Meter.canceled_of_fire fire).trans runs)
          refine ⟨t.withParts (vs ++ qs), c', ?_,
            .refused _ _ _ _ _ _ _ _ early' rule (Meter.fire_after d runs fire) late'⟩
          rw [← again late.length_eq]
          exact .refused _ _ _ _ _ _ _ _ early (by rw [last, again (by simp), rule]) fire (by rwa [last])
      | (true, c₂) =>
          obtain ⟨ws, c', next⟩ := run_total ar env [(true, r.inner)] c₂
          obtain ⟨w, rfl⟩ := List.length_eq_one_iff.1 next.length_eq
          have next' := next.after d ((Meter.canceled_of_fire fire).trans runs)
          exact ⟨r.around w, c',
            .fired _ _ _ _ _ _ _ _ early (by rw [last, again (by simp), rule]) fire next,
            .fired _ _ _ _ _ _ _ _ early' rule (Meter.fire_after d runs fire) next'⟩

/-- A run that has come to an end does the same with more fuel, and nothing more is done to what it has
left. -/
theorem finished (k : Nat) (run : Run ar env jobs m us m') (within : m.steps ≤ m.limit)
    (going : m'.stopped = none) :
    m'.steps ≤ m.limit ∧
      Run ar env jobs (m.withLimit (m.limit + k)) us (m'.withLimit (m.limit + k)) ∧
      Run ar env (retarget jobs us) ⟨k, false, 0, none⟩ us ⟨k, false, 0, none⟩ := by
  have le := run.within within going
  have settled := Settled.run (run.settled going) ⟨k, false, 0, none⟩
  rw [map_retarget run.length_eq] at settled
  exact ⟨le, run.relimit le (Nat.le_trans le (Nat.le_add_right _ k)), settled⟩

/-- A term to which no rule applies, and whose first parts are settled, goes on in its last parts. -/
theorem stay_late {t : Term} {ps qs vs : List Term} {c c' : Meter} (early : ps.length = t.early.length)
    (none : (t.withParts (ps ++ t.late.map Prod.snd)).contract? ar env = none)
    (settled : Run ar env (retarget t.early ps) c ps c) (late : qs.length = t.late.length)
    (again : Run ar env (retarget t.late qs) c vs c') (late' : vs.length = t.late.length) :
    Run ar env [(false, t.withParts (ps ++ qs))] c [t.withParts (ps ++ vs)] c' := by
  obtain ⟨first, last⟩ := Term.jobs_withParts early late
  rw [← first] at settled
  rw [← last] at again
  have redex : ((t.withParts (ps ++ qs)).withParts
      (ps ++ (t.withParts (ps ++ qs)).late.map Prod.snd)).contract? ar env = Option.none := by
    rw [last, map_retarget late, withParts_again early late early late]
    exact contract?_late none early late
  rw [← withParts_again early late early late']
  exact .stay _ _ _ _ _ _ settled redex again

/-- A run that has run out of fuel goes on: running what it has left, on a new meter, gives what running
its jobs with so much more fuel gives. -/
theorem resume (k : Nat) (run : Run ar env jobs m us m') (runs : m.canceled = false)
    (going : m.stopped = none) (within : m.steps ≤ m.limit) (out : m'.stopped = some .outOfFuel) :
    ∃ vs c', Run ar env (retarget jobs us) ⟨k, false, 0, none⟩ vs c' ∧
      Run ar env jobs (m.withLimit (m.limit + k)) vs (c'.after m.limit) := by
  induction run with
  | nil =>
      rw [going] at out
      cases out
  | cons job jobs m u m₁ us m₂ first rest ih ih' =>
      cases stopped : m₁.stopped with
      | none =>
          -- The first job is done, so it is settled, and the others go on.
          obtain ⟨le, first', settled⟩ := first.finished k within stopped
          obtain ⟨vs, c', again, rest'⟩ :=
            ih' (first.canceled_eq.trans runs) stopped (by rwa [first.limit_eq]) out
          rw [first.limit_eq] at rest'
          exact ⟨u :: vs, c', .cons _ _ _ _ _ _ _ settled again, .cons _ _ _ _ _ _ _ first' rest'⟩
      | some stop =>
          -- The first job goes on, and the others have not been begun.
          have before : m₁.stopped.isSome = true := by rw [stopped]; rfl
          obtain ⟨vs, c₁, again, first'⟩ := ih runs going within (rest.outOfFuel_before before out)
          obtain ⟨v, rfl⟩ := List.length_eq_one_iff.1 first'.length_eq
          obtain ⟨ws, c', rest'⟩ := run_total ar env jobs c₁
          refine ⟨v :: ws, c', .cons _ _ _ _ _ _ _ again ?_,
            .cons _ _ _ _ _ _ _ first' (rest'.after m.limit again.canceled_eq)⟩
          change Run ar env (retarget jobs us) c₁ ws c'
          rwa [rest.eq_of_stopped before, retarget_self]
  | need t m u m₁ run ih =>
      have there : t.isHole = false := by
        cases hole : t.isHole with
        | false => rfl
        | true =>
            have gap := run.gap_of_gap (by simp [Meter.need, hole])
            rw [out] at gap
            cases gap
      have there' : t.isHole = false → u.isHole = false := by
        simpa using run.there (by simp [out])
      simp only [Meter.need, there, Bool.false_eq_true, if_false] at ih
      obtain ⟨vs, c', again, full⟩ := ih runs going within out
      obtain ⟨v, rfl⟩ := List.length_eq_one_iff.1 full.length_eq
      refine ⟨[v], c', .need _ _ _ _ ?_, .need _ _ _ _ ?_⟩
      · simpa [Meter.need, there' there] using again
      · simpa [Meter.need, there] using full
  | stay t m ps m₁ qs m₂ early none late ih ih' =>
      cases stopped : m₁.stopped with
      | none =>
          obtain ⟨le, early', settled⟩ := early.finished k within stopped
          obtain ⟨vs, c', again, late'⟩ :=
            ih' (early.canceled_eq.trans runs) stopped (by rwa [early.limit_eq]) out
          rw [early.limit_eq] at late'
          exact ⟨[t.withParts (ps ++ vs)], c',
            stay_late early.length_eq none settled late.length_eq again late'.length_eq,
            .stay _ _ _ _ _ _ early' none late'⟩
      | some stop =>
          have before : m₁.stopped.isSome = true := by rw [stopped]; rfl
          obtain ⟨vs, c₁, again, early'⟩ := ih runs going within (late.outOfFuel_before before out)
          obtain ⟨w, c', run, run'⟩ := complete early.length_eq again early' again.canceled_eq
          rw [late.eq_of_stopped before]
          exact ⟨[w], c', run, run'⟩
  | refused t m ps m₁ c m₂ qs m₃ early some fire late ih ih' =>
      have before := Meter.stopped_of_refused fire
      have out₂ := late.outOfFuel_before before out
      rw [late.eq_of_stopped before]
      cases stopped : m₁.stopped with
      | none =>
          obtain ⟨le, early', settled⟩ := early.finished k within stopped
          -- The rule was refused because the limit is reached, which is where the new meter starts.
          have limit : m₁.withLimit (m.limit + k) = (⟨k, false, 0, none⟩ : Meter).after m.limit := by
            have runs₁ := early.canceled_eq.trans runs
            have reached := Meter.limit_le_of_refused fire stopped runs₁
            rw [early.limit_eq] at reached
            simp [Meter.withLimit, Meter.after, runs₁, stopped, Nat.le_antisymm le reached,
              Nat.add_comm]
          rw [limit] at early'
          obtain ⟨w, c', run, run'⟩ := complete early.length_eq settled early' rfl
          exact ⟨[w], c', run, run'⟩
      | some stop =>
          have before₁ : m₁.stopped.isSome = true := by rw [stopped]; rfl
          rw [Meter.fire_stopped before₁] at fire
          cases fire
          obtain ⟨vs, c₁, again, early'⟩ := ih runs going within out₂
          obtain ⟨w, c', run, run'⟩ := complete early.length_eq again early' again.canceled_eq
          exact ⟨[w], c', run, run'⟩
  | fired t m ps m₁ c m₂ u m₃ early some fire next ih ih' =>
      have going₁ := Meter.running_of_granted fire
      obtain ⟨-, early', -⟩ := early.finished k within going₁
      have le₂ := Meter.within_of_granted fire
      rw [early.limit_eq] at le₂
      have fire' := Meter.fire_withLimit (m.limit + k) fire (by rwa [early.limit_eq])
        (Nat.le_trans le₂ (Nat.le_add_right _ k))
      have limit₂ : m₂.limit = m.limit := by rw [Meter.limit_of_fire fire, early.limit_eq]
      have runs₂ := (Meter.canceled_of_fire fire).trans (early.canceled_eq.trans runs)
      obtain ⟨vs, c', again, next'⟩ := ih' runs₂ (Meter.running_after_grant fire) (by rwa [limit₂]) out
      rw [limit₂] at next'
      obtain ⟨v, rfl⟩ := List.length_eq_one_iff.1 next'.length_eq
      refine ⟨[c.around v], c', ?_, .fired _ _ _ _ _ _ _ _ early' some fire' next'⟩
      change Run ar env [(false, c.around u)] _ _ _
      change Run ar env [(true, u)] _ _ _ at again
      cases c with
      | plain inner => exact again.unneeded (next.there_of_needed (by simp [out]))
      | under name value body =>
          -- The duplication that has moved outward stays, and the reduction goes on in its body.
          obtain ⟨settled, none⟩ := early.settled_under (early.settled going₁) some
          have first := Settled.run (List.forall_mem_singleton.2 settled) ⟨k, false, 0, Option.none⟩
          exact .stay (.dup name value u) _ [value] _ [v] _ first (none u) again

end Run

/-- A term that has been left by a reduction that has run out of fuel is reduced to what the term it came
from is reduced to with more fuel, and all meters agree but for the steps before. -/
theorem reduce_resume {ar : Arith} {env : Env} {t p : Term} {n : Nat} {m' : Meter} (k : Nat)
    (reduced : reduce ar env t ⟨n, false, 0, none⟩ = (p, m')) (out : m'.stopped = some .outOfFuel) :
    ∃ r c, reduce ar env p ⟨k, false, 0, none⟩ = (r, c) ∧
      reduce ar env t ⟨n + k, false, 0, none⟩ = (r, c.after n) := by
  obtain ⟨vs, c, again, full⟩ := (reduce_iff.1 reduced).resume k rfl rfl (Nat.zero_le n) out
  obtain ⟨r, rfl⟩ := List.length_eq_one_iff.1 full.length_eq
  exact ⟨r, c, reduce_iff.2 again, reduce_iff.2 full⟩

/-- A reduction that comes back to the term it started with never comes to an end: it runs out of fuel
under every limit. -/
theorem reduce_outOfFuel {ar : Arith} {env : Env} {t : Term} {n : Nat} {m : Meter} (positive : 0 < n)
    (returns : reduce ar env t ⟨n, false, 0, none⟩ = (t, m)) (out : m.stopped = some .outOfFuel)
    (limit : Nat) : (reduce ar env t ⟨limit, false, 0, none⟩).2.stopped = some .outOfFuel := by
  induction limit using Nat.strongRecOn with
  | ind limit ih =>
      by_cases round : n ≤ limit
      · -- After one round the rest of the fuel is left for the same term.
        obtain ⟨r, c, again, full⟩ := reduce_resume (limit - n) returns out
        have before := ih (limit - n) (by omega)
        rw [again] at before
        rw [Nat.add_sub_cancel' round] at full
        rw [full]
        exact before
      · generalize reduced : reduce ar env t ⟨limit, false, 0, none⟩ = outcome
        obtain ⟨u, m'⟩ := outcome
        have honest : (⟨limit, false, 0, none⟩ : Meter).Honest :=
          ⟨by simp, fun beyond => absurd beyond (Nat.not_lt_zero _)⟩
        have higher : reduce ar env t ((⟨limit, false, 0, none⟩ : Meter).withLimit n) = (t, m) := returns
        rcases reduce_withLimit n honest (Nat.le_of_not_le round) reduced with
          done | ⟨-, gap⟩ | ⟨-, same⟩
        · exact done
        · rw [higher, out] at gap
          cases gap
        · cases higher.symm.trans same
          exact out

/-- A term that a reduction comes back to has no normal form. -/
theorem Kernel.reduce?_eq_none {k : Kernel} {t : Term} {n : Nat} {m : Meter} (positive : 0 < n)
    (returns : reduce k.arith k.env t ⟨n, false, 0, none⟩ = (t, m))
    (out : m.stopped = some .outOfFuel) : k.reduce? t = none := by
  have endless : (reduce k.arith k.env t (Meter.start 0 false)).2.stopped = some .outOfFuel :=
    reduce_outOfFuel positive returns out Meter.unbounded
  simp [Kernel.reduce?, endless]

/-- With fuel a call starts with the fuel as its limit. -/
theorem Meter.start_pos {fuel : Int} (fueled : 0 < fuel) (canceled : Bool) :
    Meter.start fuel canceled = ⟨fuel.toNat, canceled, 0, none⟩ := by
  simp [Meter.start, fueled]

/-- If the reduction has run out of fuel, so has its meter. -/
theorem Kernel.outOfFuel_of_normalize {k : Kernel} {t p : Term}
    (fails : k.normalize false t = (p, some (.stopped .outOfFuel))) :
    ∃ m, reduce k.arith k.env t (Meter.start k.fuel false) = (p, m) ∧
      m.stopped = some .outOfFuel := by
  generalize reduced : reduce k.arith k.env t (Meter.start k.fuel false) = outcome
  obtain ⟨u, m⟩ := outcome
  obtain ⟨stop, stopped, eq⟩ | ⟨-, -, eq⟩ | ⟨-, stuck, -, ⟨-, eq⟩ | ⟨-, eq⟩⟩ :=
    Kernel.normalize_cases reduced
  all_goals
    rw [eq] at fails
    cases fails
  exact ⟨m, rfl, stopped⟩

/-- A normalization that has run out of fuel can be resumed: normalizing the term it has left gives the
term and the failure that normalizing the first term with the fuel of both gives. A term that has a
normal form has left a term with the same one. -/
theorem normalize_resume (k : Kernel) {t p : Term} {n m : Int} (fueled : 0 < n) (fueled' : 0 < m)
    (fails : { k with fuel := n }.normalize false t = (p, some (.stopped .outOfFuel))) :
    { k with fuel := m }.normalize false p = { k with fuel := n + m }.normalize false t ∧
      ∀ r, k.reduce? t = some r → k.reduce? p = some r := by
  obtain ⟨m', reduced, out⟩ := Kernel.outOfFuel_of_normalize fails
  rw [Meter.start_pos fueled] at reduced
  constructor
  · obtain ⟨r, c, again, full⟩ := reduce_resume m.toNat reduced out
    have sum : (n + m).toNat = n.toNat + m.toNat := by omega
    rw [← sum, ← Meter.start_pos (by omega)] at full
    rw [← Meter.start_pos fueled'] at again
    simp only [Kernel.normalize, again, full, Meter.after]
  · intro r returns
    obtain ⟨M, run, going⟩ := Kernel.reduce?_iff.1 returns
    -- With more fuel than any run needs, the resumed run and the whole run are the same.
    obtain ⟨r', c, again, full⟩ := reduce_resume Meter.unbounded reduced out
    have within : M.steps ≤ Meter.unbounded := run.within (Nat.zero_le _) going
    have whole := run.relimit within (Nat.le_trans within (Nat.le_add_left _ n.toNat))
    obtain ⟨same, meters⟩ := whole.unique (reduce_iff.1 full)
    have going' : c.stopped = none := by
      rw [← going]
      exact (congrArg Meter.stopped meters).symm
    cases same
    exact Kernel.reduce?_iff.2 ⟨c, reduce_iff.1 again, going'⟩

/-- The term `[b : Box Type] (dup x = b in [y : Type] y ([z : Type] z Type))`. -/
def movingDup : Term :=
  .lam false "b" (.boxType .univ) <|
    .app false (.dup "x" (.var 0) (.lam false "y" .univ (.var 0)))
      (.app false (.lam false "z" .univ (.var 0)) .univ)

/-- The term `[b : Box Type] dup x = b in ([y : Type] y Type)`, which two steps leave of `movingDup`. -/
def movedDup : Term :=
  .lam false "b" (.boxType .univ) <|
    .dup "x" (.var 0) (.app false (.lam false "y" .univ (.var 0)) .univ)

/-- The fuel runs out in the body of a duplication that has moved outward, and one more step is left. -/
theorem normalize_resume_movingDup :
    { ({} : Kernel) with fuel := 2 }.normalize false movingDup =
        (movedDup, some (.stopped .outOfFuel)) ∧
      { ({} : Kernel) with fuel := 1 }.normalize false movedDup =
        { ({} : Kernel) with fuel := 2 + 1 }.normalize false movingDup ∧
      ∀ r, ({} : Kernel).reduce? movingDup = some r → ({} : Kernel).reduce? movedDup = some r := by
  have fails : { ({} : Kernel) with fuel := 2 }.normalize false movingDup =
      (movedDup, some (.stopped .outOfFuel)) := by rfl
  exact ⟨fails, normalize_resume {} (by decide) (by decide) fails⟩

end BoxCalculus
