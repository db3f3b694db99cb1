import BoxCalculus.Term.Basic

/-!
# Metered reduction

Each application of a reduction rule is one step. A meter counts the steps and says when to stop: at
the limit, or, when the run has been canceled, at the next step at which cancellation is looked for.
Once a meter has stopped no rule fires any more.
-/

namespace BoxCalculus

/-- Why a reduction stopped early. -/
inductive Stop where
  /-- The limit on steps was reached. -/
  | outOfFuel
  /-- The run was found to be canceled. -/
  | canceled
  /-- A term was needed where there is a gap. -/
  | gap
  deriving DecidableEq, Inhabited

/-- The wording of a stop. A gap is not reported, so there is none for it. -/
def Stop.message? : Stop → Option String
  | outOfFuel => some "reduction ran out of fuel"
  | canceled => some "context canceled"
  | gap => none

/-- The steps of a run so far and what bounds them. -/
structure Meter where
  limit : Nat
  canceled : Bool
  steps : Nat
  stopped : Option Stop
  deriving DecidableEq, Inhabited

namespace Meter

/-- How many steps pass from one look at cancellation to the next. -/
def pollInterval : Nat := 1024

/-- The limit of a run that no fuel bounds: more steps than any run can take. -/
def unbounded : Nat := 0x4000_0000_0000_0000

/-- The meter of a new run. Fuel that is not positive does not bound it. -/
def start (fuel : Int) (canceled : Bool) : Meter :=
  ⟨if 0 < fuel then fuel.toNat else unbounded, canceled, 0, none⟩

/-- The steps that are left before the limit. -/
def remaining (m : Meter) : Nat :=
  m.limit - m.steps

/-- Ask for one more step. -/
def fire (m : Meter) : Bool × Meter :=
  if m.stopped.isSome then (false, m)
  else
    let m := { m with steps := m.steps + 1 }
    if m.limit < m.steps then (false, { m with stopped := some .outOfFuel })
    else if m.canceled && m.steps % pollInterval == 0 then
      (false, { m with stopped := some .canceled })
    else (true, m)

/-- Stop the run if the term that is needed next is a gap. -/
def need (m : Meter) (t : Term) : Meter :=
  if t.isHole then { m with stopped := some .gap } else m

/-- A step keeps the limit. -/
@[simp] theorem limit_fire (m : Meter) : m.fire.2.limit = m.limit := by
  unfold fire
  split
  · rfl
  · dsimp only
    split
    · rfl
    · split <;> rfl

/-- Asking for a term keeps the limit. -/
@[simp] theorem limit_need (m : Meter) (t : Term) : (m.need t).limit = m.limit := by
  unfold need
  split <;> rfl

/-- Asking for a term counts no step. -/
@[simp] theorem steps_need (m : Meter) (t : Term) : (m.need t).steps = m.steps := by
  unfold need
  split <;> rfl

/-- A step that is granted uses up one of those that were left. -/
theorem remaining_fire {m : Meter} (granted : m.fire.1 = true) :
    m.fire.2.remaining + 1 = m.remaining := by
  unfold fire at granted ⊢
  split at granted
  · simp at granted
  · rename_i running
    dsimp only at granted
    split at granted
    · simp at granted
    · rename_i within
      split at granted
      · simp at granted
      · rename_i unpolled
        simp [running, within, unpolled, remaining]
        omega

end Meter

end BoxCalculus
