import BoxCalculus.Proofs.Runs

/-!
# Runs under different limits

A run whose steps stay within two limits is the same under both (`Run.relimit`). A run that meets a
gap under one limit meets one under every higher limit (`Run.gap_mono`): where it has stopped early
it goes through the terms that are left all the same, and what it finds missing there is missing for
every run. So `reduce` gives the same under a higher limit unless it has run out of fuel
(`reduce_withLimit`).
-/

namespace BoxCalculus

/-- The meter with another limit. -/
def Meter.withLimit (m : Meter) (limit : Nat) : Meter :=
  { m with limit := limit }

/-- Asking for a term does not look at the limit. -/
@[simp] theorem Meter.withLimit_need (m : Meter) (limit : Nat) (t : Term) :
    (m.need t).withLimit limit = (m.withLimit limit).need t := by
  unfold Meter.need
  split <;> rfl

/-- A stopped meter grants nothing. -/
theorem Meter.fire_stopped {m : Meter} (stopped : m.stopped.isSome = true) :
    m.fire = (false, m) := by
  simp only [Meter.fire, stopped, if_true]

/-- A step keeps the limit. -/
theorem Meter.limit_of_fire {m m' : Meter} {granted : Bool} (fire : m.fire = (granted, m')) :
    m'.limit = m.limit := by
  have limit := m.limit_fire
  rwa [fire] at limit

/-- A step does not lower the count. -/
theorem Meter.steps_of_fire {m m' : Meter} {granted : Bool} (fire : m.fire = (granted, m')) :
    m.steps ≤ m'.steps := by
  obtain ⟨-, eq⟩ | ⟨-, -, eq⟩ | ⟨-, -, -, eq⟩ | ⟨-, -, -, eq⟩ := m.fire_cases
  all_goals
    rw [eq] at fire
    cases fire
    simp

/-- A step that is granted stays within the limit. -/
theorem Meter.within_of_granted {m m' : Meter} (granted : m.fire = (true, m')) :
    m'.steps ≤ m.limit := by
  obtain ⟨-, eq⟩ | ⟨-, -, eq⟩ | ⟨-, -, -, eq⟩ | ⟨-, within, -, eq⟩ := m.fire_cases
  all_goals
    rw [eq] at granted
    cases granted
  exact within

/-- A meter that has granted a step is running. -/
theorem Meter.running_after_grant {m m' : Meter} (granted : m.fire = (true, m')) :
    m'.stopped = none := by
  obtain ⟨-, eq⟩ | ⟨-, -, eq⟩ | ⟨-, -, -, eq⟩ | ⟨going, -, -, eq⟩ := m.fire_cases
  all_goals
    rw [eq] at granted
    cases granted
  exact going

/-- Asking for a step meets no gap. -/
theorem Meter.gap_before_fire {m m' : Meter} {granted : Bool} (fire : m.fire = (granted, m'))
    (gap : m'.stopped = some .gap) : m.stopped = some .gap := by
  obtain ⟨-, eq⟩ | ⟨-, -, eq⟩ | ⟨-, -, -, eq⟩ | ⟨-, -, -, eq⟩ := m.fire_cases
  all_goals
    rw [eq] at fire
    cases fire
  all_goals first | exact gap | cases gap

/-- A step within both limits is granted or refused by both. -/
theorem Meter.fire_withLimit {m m' : Meter} {granted : Bool} (limit : Nat)
    (fire : m.fire = (granted, m')) (within : m'.steps ≤ m.limit) (within' : m'.steps ≤ limit) :
    (m.withLimit limit).fire = (granted, m'.withLimit limit) := by
  obtain ⟨stopped, eq⟩ | ⟨-, out, eq⟩ | ⟨running, -, polls, eq⟩ | ⟨running, -, polls, eq⟩ :=
    m.fire_cases
  all_goals
    rw [eq] at fire
    cases fire
  · simp [Meter.fire, Meter.withLimit, stopped]
  · simp only at within
    omega
  all_goals
    simp only [Meter.polls] at polls
    simp only at within'
    have inside : ¬ limit < m.steps + 1 := by omega
    simp [Meter.fire, Meter.withLimit, running, polls, inside]

namespace Run

variable {ar : Arith} {env : Env} {jobs : List (Bool × Term)} {m m' : Meter} {us : List Term}

/-- Runs keep what asking for terms and for steps keeps true of a meter. -/
theorem keeps {P : Meter → Prop} (need : ∀ {m : Meter}, P m → ∀ t, P (m.need t))
    (fire : ∀ {m m' : Meter} {granted : Bool}, P m → m.fire = (granted, m') → P m')
    (run : Run ar env jobs m us m') (before : P m) : P m' := by
  induction run with
  | nil => exact before
  | cons _ _ _ _ _ _ _ _ _ ih ih' => exact ih' (ih before)
  | need t m u m₁ _ ih => exact ih (need before t)
  | stay _ _ _ _ _ _ _ _ _ ih ih' => exact ih' (ih before)
  | refused _ _ _ _ _ _ _ _ _ _ fired _ ih ih' => exact ih' (fire (ih before) fired)
  | fired _ _ _ _ _ _ _ _ _ _ fired _ ih ih' => exact ih' (fire (ih before) fired)

/-- Runs are the same on meters that are changed in a way that asking for terms and for steps does not
notice. -/
theorem onMeters {P : Meter → Prop} {f : Meter → Meter}
    (need : ∀ {m : Meter}, P m → ∀ t, P (m.need t) ∧ (f m).need t = f (m.need t))
    (fire : ∀ {m m' : Meter} {granted : Bool}, P m → m.fire = (granted, m') →
      P m' ∧ (f m).fire = (granted, f m'))
    (run : Run ar env jobs m us m') (before : P m) : Run ar env jobs (f m) us (f m') := by
  have keep {jobs : List (Bool × Term)} {m m' : Meter} {us : List Term}
      (run : Run ar env jobs m us m') (before : P m) : P m' :=
    run.keeps (fun before t => (need before t).1) (fun before fired => (fire before fired).1) before
  induction run with
  | nil => exact .nil _
  | cons job jobs m u m₁ us m₂ first _ ih ih' =>
      exact .cons _ _ _ _ _ _ _ (ih before) (ih' (keep first before))
  | need t m u m₁ _ ih =>
      refine .need _ _ _ _ ?_
      rw [(need before t).2]
      exact ih (need before t).1
  | stay t m ps m₁ qs m₂ early none _ ih ih' =>
      exact .stay _ _ _ _ _ _ (ih before) none (ih' (keep early before))
  | refused t m ps m₁ c m₂ qs m₃ early some fired _ ih ih' =>
      obtain ⟨before₂, fired'⟩ := fire (keep early before) fired
      exact .refused _ _ _ _ _ _ _ _ (ih before) some fired' (ih' before₂)
  | fired t m ps m₁ c m₂ u m₃ early some fired _ ih ih' =>
      obtain ⟨before₂, fired'⟩ := fire (keep early before) fired
      exact .fired _ _ _ _ _ _ _ _ (ih before) some fired' (ih' before₂)

/-- A run keeps the limit. -/
theorem limit_eq (run : Run ar env jobs m us m') : m'.limit = m.limit := by
  refine run.keeps (P := fun after => after.limit = m.limit) (fun same t => ?_) (fun same fire => ?_) rfl
  · rw [Meter.limit_need, same]
  · rw [Meter.limit_of_fire fire, same]

/-- A run does not lower the count. -/
theorem steps_le (run : Run ar env jobs m us m') : m.steps ≤ m'.steps := by
  refine run.keeps (P := fun after => m.steps ≤ after.steps) (fun le t => ?_) (fun le fire => ?_)
    (Nat.le_refl _)
  · rwa [Meter.steps_need]
  · exact Nat.le_trans le (Meter.steps_of_fire fire)

/-- A run whose steps stay within two limits is the same under both. -/
theorem relimit {limit : Nat} (run : Run ar env jobs m us m') (within : m'.steps ≤ m.limit)
    (within' : m'.steps ≤ limit) : Run ar env jobs (m.withLimit limit) us (m'.withLimit limit) := by
  induction run with
  | nil m => exact .nil _
  | cons job jobs m u m₁ us m₂ first rest ih ih' =>
      have le := rest.steps_le
      have same := first.limit_eq
      exact .cons _ _ _ _ _ _ _ (ih (by omega) (by omega)) (ih' (by omega) (by omega))
  | need t m u m₁ _ ih =>
      have run := ih (by simpa using within) within'
      rw [Meter.withLimit_need] at run
      exact .need _ _ _ _ run
  | stay t m ps m₁ qs m₂ early none late ih ih' =>
      have le := late.steps_le
      have same := early.limit_eq
      exact .stay _ _ _ _ _ _ (ih (by omega) (by omega)) none (ih' (by omega) (by omega))
  | refused t m ps m₁ c m₂ qs m₃ early some fire late ih ih' =>
      have le := late.steps_le
      have same := early.limit_eq
      have same' := Meter.limit_of_fire fire
      have le' := Meter.steps_of_fire fire
      exact .refused _ _ _ _ _ _ _ _ (ih (by omega) (by omega)) some
        (Meter.fire_withLimit _ fire (by omega) (by omega)) (ih' (by omega) (by omega))
  | fired t m ps m₁ c m₂ u m₃ early some fire next ih ih' =>
      have le := next.steps_le
      have same := early.limit_eq
      have same' := Meter.limit_of_fire fire
      have le' := Meter.steps_of_fire fire
      exact .fired _ _ _ _ _ _ _ _ (ih (by omega) (by omega)) some
        (Meter.fire_withLimit _ fire (by omega) (by omega)) (ih' (by omega) (by omega))

/-- A stopped run takes no more steps, and at most meets a gap. -/
theorem of_stopped (run : Run ar env jobs m us m') (stopped : m.stopped.isSome = true) :
    m'.steps = m.steps ∧ (m'.stopped = m.stopped ∨ m'.stopped = some .gap) := by
  have chain : ∀ {a b c : Meter}, a.stopped.isSome = true →
      b.steps = a.steps ∧ (b.stopped = a.stopped ∨ b.stopped = some .gap) →
      (b.stopped.isSome = true → c.steps = b.steps ∧ (c.stopped = b.stopped ∨ c.stopped = some .gap)) →
      c.steps = a.steps ∧ (c.stopped = a.stopped ∨ c.stopped = some .gap) := by
    grind
  induction run with
  | nil => exact ⟨rfl, .inl rfl⟩
  | cons _ _ _ _ _ _ _ _ _ ih ih' => exact chain stopped (ih stopped) ih'
  | need t m u m₁ _ ih => 
      by_cases hole : t.isHole = true
      · have now : (m.need t).stopped = some .gap := by simp [Meter.need, hole]
        have after := ih (by rw [now]; rfl)
        rw [now] at after
        exact ⟨by simpa using after.1, .inr (by simpa using after.2)⟩
      · simpa [Meter.need, hole] using ih (by simpa [Meter.need, hole] using stopped)
  | stay _ _ _ _ _ _ _ _ _ ih ih' => exact chain stopped (ih stopped) ih'
  | refused t m ps m₁ c m₂ qs m₃ _ _ fire _ ih ih' =>
      refine chain stopped (ih stopped) fun stopped₁ => ?_
      rw [Meter.fire_stopped stopped₁] at fire
      cases fire
      exact ih' stopped₁
  | fired t m ps m₁ c m₂ u m₃ _ _ fire _ ih ih' =>
      refine chain stopped (ih stopped) fun stopped₁ => ?_
      rw [Meter.fire_stopped stopped₁] at fire
      cases fire

/-- A run that has met a gap stays so. -/
theorem gap_of_gap (run : Run ar env jobs m us m') (gap : m.stopped = some .gap) :
    m'.stopped = some .gap := by
  have after := run.of_stopped (by rw [gap]; rfl)
  rw [gap, or_self] at after
  exact after.2

end Run

/-- `Gapped (needed, t)` says that a term is missing in `t` where every run needs one: it is `t`
itself and it is needed, or it is a part of an application or of a duplication in `t`. -/
inductive Gapped : Bool × Term → Prop where
  | here : Gapped (true, .hole)
  | inside (needed t job) : job ∈ t.early ++ t.late → Gapped job → Gapped (needed, t)

/-- A gap inside a term is one whether the term is needed or not. -/
theorem Gapped.inner {needed : Bool} {t : Term} (gapped : Gapped (false, t)) :
    Gapped (needed, t) := by
  cases gapped with
  | inside _ _ job member gapped => exact .inside needed t job member gapped

/-- The jobs of a term after a traversal of its variables. -/
theorem Term.jobs_bindVars (f : Nat → Int → Term) (depth : Nat) {t : Term} {job : Bool × Term}
    (member : job ∈ t.early ++ t.late) :
    ∃ depth', (job.1, job.2.bindVars f depth') ∈
      (t.bindVars f depth).early ++ (t.bindVars f depth).late := by
  rw [Term.early_append_late] at member
  obtain ⟨part, inside, rfl⟩ := List.mem_map.1 member
  have compound : ∀ i, t ≠ .var i := by
    rintro i rfl
    cases inside
  have needs : (t.bindVars f depth).needsParts = t.needsParts := by
    cases t with
    | var i => exact absurd rfl (compound i)
    | _ => rfl
  refine ⟨depth + part.1, ?_⟩
  rw [Term.early_append_late, Term.parts_bindVars f depth compound, List.map_map, needs]
  exact List.mem_map_of_mem inside

/-- What is missing in a term is missing after any traversal of its variables. -/
theorem Gapped.bindVars {f : Nat → Int → Term} {depth : Nat} {job : Bool × Term}
    (gapped : Gapped job) : Gapped (job.1, job.2.bindVars f depth) := by
  induction gapped generalizing depth with
  | here => exact .here
  | inside needed t job member _ ih =>
      obtain ⟨depth', member'⟩ := Term.jobs_bindVars f depth member
      exact .inside _ _ _ member' ih

/-- What is missing in a part that a rule leaves for later is missing in what the rule gives. -/
theorem Gapped.contract {ar : Arith} {env : Env} {t : Term} {ps : List Term} {c : Contractum}
    {job : Bool × Term} (same : ps.length = t.early.length)
    (some : (t.withParts (ps ++ t.late.map Prod.snd)).contract? ar env = some c)
    (member : job ∈ t.late) (gapped : Gapped job) : Gapped (true, c.inner) := by
  cases t with
  | dup name value body =>
      obtain rfl := List.mem_singleton.1 member
      obtain ⟨value', rfl⟩ := List.length_eq_one_iff.1 same
      cases value' with
      | box content =>
          obtain rfl := Option.some.inj some
          exact gapped.bindVars
      | dup name' value' inner =>
          obtain rfl := Option.some.inj some
          exact .inside _ _ (true, body.shift ar 1 1) (by simp [Contractum.inner, Term.early, Term.late])
            gapped.bindVars
      | _ => cases some
  | _ => cases member

namespace Run

variable {ar : Arith} {env : Env} {jobs : List (Bool × Term)} {m m' : Meter} {us : List Term}

/-- Every run meets what is missing in its jobs. -/
theorem gap_of_gapped (run : Run ar env jobs m us m') (gapped : ∃ job ∈ jobs, Gapped job) :
    m'.stopped = some .gap := by
  induction run with
  | nil => simp at gapped
  | cons job jobs m u m₁ us m₂ _ rest ih ih' =>
      rw [List.exists_mem_cons_iff] at gapped
      rcases gapped with gapped | gapped
      · exact rest.gap_of_gap (ih (by simpa using gapped))
      · exact ih' gapped
  | need t m u m₁ run ih =>
      have gapped' : Gapped (true, t) := by simpa using gapped
      cases gapped' with
      | here => exact run.gap_of_gap rfl
      | inside _ _ job member gapped => exact ih (by simpa using .inside false t job member gapped)
  | stay t m ps m₁ qs m₂ _ _ late ih ih' =>
      have gapped' : Gapped (false, t) := by simpa using gapped
      cases gapped' with
      | inside _ _ job member gapped =>
          rcases List.mem_append.1 member with member | member
          · exact late.gap_of_gap (ih ⟨job, member, gapped⟩)
          · exact ih' ⟨job, member, gapped⟩
  | refused t m ps m₁ c m₂ qs m₃ _ _ fire late ih ih' =>
      have gapped' : Gapped (false, t) := by simpa using gapped
      cases gapped' with
      | inside _ _ job member gapped =>
          rcases List.mem_append.1 member with member | member
          · have before := ih ⟨job, member, gapped⟩
            rw [Meter.fire_stopped (by rw [before]; rfl)] at fire
            cases fire
            exact late.gap_of_gap before
          · exact ih' ⟨job, member, gapped⟩
  | fired t m ps m₁ c m₂ u m₃ early some fire _ ih ih' =>
      have gapped' : Gapped (false, t) := by simpa using gapped
      cases gapped' with
      | inside _ _ job member gapped =>
          rcases List.mem_append.1 member with member | member
          · have before := ih ⟨job, member, gapped⟩
            rw [Meter.running_of_granted fire] at before
            cases before
          · refine ih' ⟨_, List.mem_singleton_self _, gapped.contract early.length_eq some member⟩

/-- A stopped run meets a gap only if something is missing in its jobs. -/
theorem gapped_of_gap (run : Run ar env jobs m us m') (stopped : m.stopped.isSome = true)
    (before : m.stopped ≠ some .gap) (after : m'.stopped = some .gap) :
    ∃ job ∈ jobs, Gapped job := by
  induction run with
  | nil => exact absurd after before
  | cons job jobs m u m₁ us m₂ first _ ih ih' =>
      rw [List.exists_mem_cons_iff]
      by_cases between : m₁.stopped = some .gap
      · exact .inl (by simpa using ih stopped before between)
      · have same := (first.of_stopped stopped).2.resolve_right between
        exact .inr (ih' (same ▸ stopped) between after)
  | need t m u m₁ _ ih =>
      refine ⟨_, List.mem_singleton_self _, ?_⟩
      by_cases hole : t.isHole = true
      · rw [t.isHole_iff.1 hole]
        exact .here
      · simp only [Meter.need, hole, Bool.false_eq_true, if_false] at ih
        have gapped : Gapped (false, t) := by simpa using ih stopped before after
        exact gapped.inner
  | stay t m ps m₁ qs m₂ early _ _ ih ih' =>
      refine ⟨_, List.mem_singleton_self _, ?_⟩
      by_cases between : m₁.stopped = some .gap
      · obtain ⟨job, member, gapped⟩ := ih stopped before between
        exact .inside _ _ job (List.mem_append_left _ member) gapped
      · have same := (early.of_stopped stopped).2.resolve_right between
        obtain ⟨job, member, gapped⟩ := ih' (same ▸ stopped) between after
        exact .inside _ _ job (List.mem_append_right _ member) gapped
  | refused t m ps m₁ c m₂ qs m₃ early _ fire _ ih ih' =>
      refine ⟨_, List.mem_singleton_self _, ?_⟩
      by_cases between : m₁.stopped = some .gap
      · obtain ⟨job, member, gapped⟩ := ih stopped before between
        exact .inside _ _ job (List.mem_append_left _ member) gapped
      · have same := (early.of_stopped stopped).2.resolve_right between
        have stopped₁ : m₁.stopped.isSome = true := same ▸ stopped
        rw [Meter.fire_stopped stopped₁] at fire
        cases fire
        obtain ⟨job, member, gapped⟩ := ih' stopped₁ between after
        exact .inside _ _ job (List.mem_append_right _ member) gapped
  | fired t m ps m₁ c m₂ u m₃ early _ fire _ ih ih' =>
      have running := Meter.running_of_granted fire
      rcases (early.of_stopped stopped).2 with same | gap
      · rw [← same, running] at stopped
        cases stopped
      · rw [running] at gap
        cases gap

end Run

/-- The meter has run out of fuel only if its limit is passed, and when its limit is passed it has
run out of fuel, unless it has met a gap since. -/
def Meter.Honest (m : Meter) : Prop :=
  (m.stopped = some .outOfFuel → m.limit < m.steps) ∧
    (m.limit < m.steps → m.stopped = some .outOfFuel ∨ m.stopped = some .gap)

/-- Asking for a term keeps a meter honest. -/
theorem Meter.Honest.need {m : Meter} (honest : m.Honest) (t : Term) : (m.need t).Honest := by
  unfold Meter.need
  split
  · simp [Meter.Honest]
  · exact honest

/-- A step keeps a meter honest. -/
theorem Meter.Honest.fire {m m' : Meter} {granted : Bool} (honest : m.Honest)
    (fire : m.fire = (granted, m')) : m'.Honest := by
  obtain ⟨-, eq⟩ | ⟨-, out, eq⟩ | ⟨-, within, -, eq⟩ | ⟨running, within, -, eq⟩ := m.fire_cases
  all_goals
    rw [eq] at fire
    cases fire
  · exact honest
  · simp [Meter.Honest, Nat.lt_succ_of_le out]
  · simp [Meter.Honest, Nat.not_lt_of_le (Nat.succ_le_of_lt within)]
  · simp [Meter.Honest, running, Nat.not_lt_of_le (Nat.succ_le_of_lt within)]

/-- The meter of a run that is not canceled and has not been. -/
def Meter.Undisturbed (m : Meter) : Prop :=
  m.canceled = false ∧ m.stopped ≠ some .canceled

/-- Asking for a term cancels nothing. -/
theorem Meter.Undisturbed.need {m : Meter} (undisturbed : m.Undisturbed) (t : Term) :
    (m.need t).Undisturbed := by
  unfold Meter.need
  split
  · exact ⟨undisturbed.1, by simp⟩
  · exact undisturbed

/-- A step on a meter that is not canceled cancels nothing. -/
theorem Meter.Undisturbed.fire {m m' : Meter} {granted : Bool} (undisturbed : m.Undisturbed)
    (fire : m.fire = (granted, m')) : m'.Undisturbed := by
  obtain ⟨-, eq⟩ | ⟨-, -, eq⟩ | ⟨-, -, polls, -⟩ | ⟨-, -, -, eq⟩ := m.fire_cases
  · rw [eq] at fire
    cases fire
    exact undisturbed
  · rw [eq] at fire
    cases fire
    exact ⟨undisturbed.1, by simp⟩
  · simp [Meter.polls, undisturbed.1] at polls
  · rw [eq] at fire
    cases fire
    exact undisturbed

namespace Run

variable {ar : Arith} {env : Env} {jobs : List (Bool × Term)} {m m' : Meter} {us : List Term}

/-- A run keeps a meter honest. -/
theorem honest (run : Run ar env jobs m us m') (before : m.Honest) : m'.Honest :=
  run.keeps Meter.Honest.need Meter.Honest.fire before

/-- A run that nobody cancels is not stopped by cancellation. -/
theorem undisturbed (run : Run ar env jobs m us m') (before : m.Undisturbed) : m'.Undisturbed :=
  run.keeps Meter.Undisturbed.need Meter.Undisturbed.fire before

/-- The steps of a run that has not stopped stay within the limit. -/
theorem within (run : Run ar env jobs m us m') (within : m.steps ≤ m.limit)
    (going : m'.stopped = none) : m'.steps ≤ m.limit := by
  have honest : m.Honest :=
    ⟨fun out => by simp [run.running going] at out, fun beyond => by omega⟩
  rw [← run.limit_eq]
  by_contra beyond
  have stopped := (run.honest honest).2 (Nat.lt_of_not_le beyond)
  simp [going] at stopped

/-- Once its first parts have been run, a term can be run, and meets what they have met and what is
missing in the parts that are left. -/
theorem after_early {t : Term} {ps : List Term} {m m₁ : Meter} (early : Run ar env t.early m ps m₁) :
    ∃ u m', Run ar env [(false, t)] m [u] m' ∧
      (m₁.stopped = some .gap ∨ (∃ job ∈ t.late, Gapped job) → m'.stopped = some .gap) := by
  cases rule : (t.withParts (ps ++ t.late.map Prod.snd)).contract? ar env with
  | none =>
      obtain ⟨qs, m', late⟩ := run_total ar env t.late m₁
      refine ⟨_, m', .stay _ _ _ _ _ _ early rule late, ?_⟩
      rintro (gap | gapped)
      · exact late.gap_of_gap gap
      · exact late.gap_of_gapped gapped
  | some c =>
      match fire : m₁.fire with
      | (false, m₂) =>
          obtain ⟨qs, m', late⟩ := run_total ar env t.late m₂
          refine ⟨_, m', .refused _ _ _ _ _ _ _ _ early rule fire late, ?_⟩
          rintro (gap | gapped)
          · rw [Meter.fire_stopped (by rw [gap]; rfl)] at fire
            cases fire
            exact late.gap_of_gap gap
          · exact late.gap_of_gapped gapped
      | (true, m₂) =>
          obtain ⟨us, m', next⟩ := run_total ar env [(true, c.inner)] m₂
          obtain ⟨u, rfl⟩ := List.length_eq_one_iff.1 next.length_eq
          refine ⟨_, m', .fired _ _ _ _ _ _ _ _ early rule fire next, ?_⟩
          rintro (gap | ⟨job, member, gapped⟩)
          · rw [Meter.running_of_granted fire] at gap
            cases gap
          · exact next.gap_of_gapped
              ⟨_, List.mem_singleton_self _, gapped.contract early.length_eq rule member⟩

/-- A run that starts beyond its limit meets a gap only if there was one before, or something is
missing in its jobs. -/
theorem gap_or_gapped (run : Run ar env jobs m us m') (before : m.Honest)
    (out : ¬ m.steps ≤ m.limit) (gap : m'.stopped = some .gap) :
    m.stopped = some .gap ∨ ∃ job ∈ jobs, Gapped job := by
  rcases before.2 (Nat.lt_of_not_le out) with stopped | stopped
  · exact .inr (run.gapped_of_gap (by rw [stopped]; rfl) (by simp [stopped]) gap)
  · exact .inl stopped

/-- A term meets a gap if its first parts do, or if something is missing in its last parts. -/
theorem gap_of_parts {t : Term} {met : Prop}
    (first : met → ∃ ps m₁, Run ar env t.early m ps m₁ ∧ m₁.stopped = some .gap)
    (either : met ∨ ∃ job ∈ t.late, Gapped job) :
    ∃ us' m', Run ar env [(false, t)] m us' m' ∧ m'.stopped = some .gap := by
  rcases either with met | gapped
  · obtain ⟨ps, m₁, early, gap⟩ := first met
    obtain ⟨u, m', run, after⟩ := early.after_early
    exact ⟨_, m', run, after (.inl gap)⟩
  · obtain ⟨ps, m₁, early⟩ := run_total ar env t.early m
    obtain ⟨u, m', run, after⟩ := early.after_early
    exact ⟨_, m', run, after (.inr gapped)⟩

/-- A run that meets a gap meets one under every higher limit. -/
theorem gap_mono {limit : Nat} (run : Run ar env jobs m us m') (before : m.Honest)
    (higher : m.limit ≤ limit) (gap : m'.stopped = some .gap) :
    ∃ us' m'', Run ar env jobs (m.withLimit limit) us' m'' ∧ m''.stopped = some .gap := by
  induction run with
  | nil => exact ⟨_, _, .nil _, gap⟩
  | cons job jobs m u m₁ us m₂ first rest ih ih' =>
      by_cases within : m₁.steps ≤ m.limit
      · have first' := first.relimit within (Nat.le_trans within higher)
        obtain ⟨us', m'', rest', gap'⟩ :=
          ih' (first.honest before) (by rwa [first.limit_eq]) gap
        exact ⟨_, m'', .cons _ _ _ _ _ _ _ first' rest', gap'⟩
      · rw [← first.limit_eq] at within
        rcases rest.gap_or_gapped (first.honest before) within gap with gap₁ | gapped
        · obtain ⟨us₁, m₁', first', gap'⟩ := ih before higher gap₁
          obtain ⟨u', rfl⟩ := List.length_eq_one_iff.1 first'.length_eq
          obtain ⟨us', m'', rest'⟩ := run_total ar env jobs m₁'
          exact ⟨_, m'', .cons _ _ _ _ _ _ _ first' rest', rest'.gap_of_gap gap'⟩
        · obtain ⟨us₁, m₁', first'⟩ := run_total ar env [job] (m.withLimit limit)
          obtain ⟨u', rfl⟩ := List.length_eq_one_iff.1 first'.length_eq
          obtain ⟨us', m'', rest'⟩ := run_total ar env jobs m₁'
          exact ⟨_, m'', .cons _ _ _ _ _ _ _ first' rest', rest'.gap_of_gapped gapped⟩
  | need t m u m₁ _ ih =>
      obtain ⟨us', m'', run, gap'⟩ := ih (before.need t) (by simpa using higher) gap
      obtain ⟨u', rfl⟩ := List.length_eq_one_iff.1 run.length_eq
      rw [Meter.withLimit_need] at run
      exact ⟨_, m'', .need _ _ _ _ run, gap'⟩
  | stay t m ps m₁ qs m₂ early none late ih ih' =>
      by_cases within : m₁.steps ≤ m.limit
      · have early' := early.relimit within (Nat.le_trans within higher)
        obtain ⟨qs', m'', late', gap'⟩ :=
          ih' (early.honest before) (by rwa [early.limit_eq]) gap
        exact ⟨_, m'', .stay _ _ _ _ _ _ early' none late', gap'⟩
      · rw [← early.limit_eq] at within
        exact gap_of_parts (ih before higher) (late.gap_or_gapped (early.honest before) within gap)
  | refused t m ps m₁ c m₂ qs m₃ early some fire late ih ih' =>
      have honest₂ := (early.honest before).fire fire
      have limit₂ : m₂.limit = m.limit := by rw [Meter.limit_of_fire fire, early.limit_eq]
      by_cases within : m₂.steps ≤ m.limit
      · have le := Meter.steps_of_fire fire
        have early' := early.relimit (Nat.le_trans le within) (by omega : m₁.steps ≤ limit)
        have fire' := Meter.fire_withLimit limit fire (by rwa [early.limit_eq]) (by omega)
        obtain ⟨qs', m'', late', gap'⟩ := ih' honest₂ (by rwa [limit₂]) gap
        exact ⟨_, m'', .refused _ _ _ _ _ _ _ _ early' some fire' late', gap'⟩
      · rw [← limit₂] at within
        refine gap_of_parts (ih before higher) ((late.gap_or_gapped honest₂ within gap).imp ?_ id)
        exact fun gap₂ => Meter.gap_before_fire fire gap₂
  | fired t m ps m₁ c m₂ u m₃ early some fire next ih ih' =>
      have within : m₂.steps ≤ m.limit := by
        rw [← early.limit_eq]
        exact Meter.within_of_granted fire
      have le := Meter.steps_of_fire fire
      have early' := early.relimit (Nat.le_trans le within) (by omega : m₁.steps ≤ limit)
      have fire' := Meter.fire_withLimit limit fire (by rwa [early.limit_eq]) (by omega)
      have limit₂ : m₂.limit = m.limit := by rw [Meter.limit_of_fire fire, early.limit_eq]
      obtain ⟨us', m'', next', gap'⟩ :=
        ih' ((early.honest before).fire fire) (by rwa [limit₂]) gap
      obtain ⟨u', rfl⟩ := List.length_eq_one_iff.1 next'.length_eq
      exact ⟨_, m'', .fired _ _ _ _ _ _ _ _ early' some fire' next', gap'⟩

end Run

/-- Reducing a term under a higher limit gives the same, unless it has run out of fuel or meets a
gap. -/
theorem reduce_withLimit {ar : Arith} {env : Env} {t u : Term} {m m' : Meter} (limit : Nat)
    (before : m.Honest) (higher : m.limit ≤ limit) (reduced : reduce ar env t m = (u, m')) :
    m'.stopped = some .outOfFuel ∨
    (m'.stopped = some .gap ∧
      (reduce ar env t (m.withLimit limit)).2.stopped = some .gap) ∨
    (m'.stopped ≠ some .gap ∧
      reduce ar env t (m.withLimit limit) = (u, m'.withLimit limit)) := by
  have run := reduce_iff.1 reduced
  by_cases gap : m'.stopped = some .gap
  · obtain ⟨us, m'', run', gap'⟩ := run.gap_mono before higher gap
    obtain ⟨u', rfl⟩ := List.length_eq_one_iff.1 run'.length_eq
    exact .inr (.inl ⟨gap, by rw [reduce_iff.2 run']; exact gap'⟩)
  · by_cases within : m'.steps ≤ m.limit
    · exact .inr (.inr ⟨gap, reduce_iff.2 (run.relimit within (Nat.le_trans within higher))⟩)
    · rw [← run.limit_eq] at within
      exact .inl (((run.honest before).2 (Nat.lt_of_not_le within)).resolve_right gap)

end BoxCalculus
