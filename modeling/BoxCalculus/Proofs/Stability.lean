import BoxCalculus.Proofs.Redexes
import BoxCalculus.Proofs.Runs
import BoxCalculus.Proofs.Shape
import BoxCalculus.Proofs.Telescopes

/-!
# Conditions that rewriting keeps

A condition on terms that speaks of gaps and of declarations only is `Stable` if the declarations it
allows stay allowed. Such a condition goes on to hold everywhere in a term when the term is rewritten
(`Stable.steps`).

There being no gap is such a condition, so a reduction of a `solid` term meets none: unless it is
canceled, it ends in a normal form or runs out of fuel (`Run.smooth`). Another is that all
declarations are proper (`stable_proper`).
-/

namespace BoxCalculus

open Term (Everywhere)

/-- Is the term neither a gap nor a declaration? -/
def Term.ordinary : Term → Bool
  | .hole => false
  | .data _ _ _ => false
  | _ => true

/-- The condition speaks of gaps and of declarations only, and declarations that meet it do so
when they are instantiated or rewritten inside. -/
structure Stable (P : Term → Prop) : Prop where
  ordinary : ∀ {t : Term}, t.ordinary = true → P t
  data_inst : ∀ {name type ctrs} (σ : Assign), P (.data name type ctrs) →
    P ((Term.data name type ctrs).inst σ)
  data_parts : ∀ {name type ctrs u}, P (.data name type ctrs) →
    Parted (Steps .exact .empty) (.data name type ctrs) u → P u

/-- Making room puts variables in place of variables. -/
theorem Assign.raise_upBy (m n i : Nat) : ∃ j : Nat, (Assign.raise m).upBy n i = .var j := by
  induction n generalizing i with
  | zero => exact ⟨i + m, rfl⟩
  | succ n ih =>
      cases i with
      | zero => exact ⟨0, rfl⟩
      | succ i =>
          obtain ⟨j, same⟩ := ih i
          exact ⟨j + 1, by rw [Assign.upBy, Assign.up_succ, same, Term.inst_var, Assign.raise]⟩

/-- A change of the parts makes no gap and no declaration. -/
theorem Parted.ordinary_eq {R : Term → Term → Prop} {t u : Term} (parted : Parted R t u) :
    u.ordinary = t.ordinary := by
  obtain ⟨ps, -, rfl⟩ := parted
  unfold Term.withParts
  split <;> rfl

namespace Stable

variable {P : Term → Prop} (stable : Stable P) {t u value : Term} {σ : Assign}
include stable

/-- The condition holds everywhere in a form other than a gap or a declaration if it does in its
parts. -/
theorem everywhere_iff (ordinary : t.ordinary = true) :
    Everywhere P t ↔ ∀ part ∈ t.parts, Everywhere P part.2 :=
  ⟨fun all _ => all.part, .intro (stable.ordinary ordinary)⟩

/-- A stable condition holds in variables. -/
theorem everywhere_var (i : Int) : Everywhere P (.var i) :=
  (stable.everywhere_iff rfl).2 fun _ mem => by cases mem

/-- A stable condition is kept by an instantiation with terms in which it holds below all binders.
-/
theorem inst_of_upBy (placed : ∀ n i, Everywhere P (σ.upBy n i)) (all : Everywhere P t) :
    Everywhere P (t.inst σ) := by
  induction t using Term.byParts generalizing σ with
  | step t ih =>
      by_cases compound : ∀ i, t ≠ .var i
      · refine .intro ?_ fun part mem => ?_
        · cases t with
          | hole => exact all.here
          | var i => exact absurd rfl (compound i)
          | data => exact stable.data_inst σ all.here
          | _ => exact stable.ordinary rfl
        · rw [Term.parts_inst σ compound] at mem
          obtain ⟨part, inside, rfl⟩ := List.mem_map.1 mem
          refine ih part inside (fun n i => ?_) (all.part inside)
          rw [Assign.upBy_upBy]
          exact placed _ i
      · simp only [ne_eq, not_forall, not_not] at compound
        obtain ⟨i, rfl⟩ := compound
        by_cases negative : i < 0
        · rw [Term.inst_negative negative]
          exact stable.everywhere_var i
        · obtain ⟨n, rfl⟩ := Int.eq_ofNat_of_zero_le (Int.not_lt.1 negative)
          rw [Term.inst_var]
          exact placed 0 n

/-- A stable condition is kept by making room. -/
theorem raise (all : Everywhere P t) (m n : Nat) :
    Everywhere P (t.inst ((Assign.raise m).upBy n)) := by
  refine stable.inst_of_upBy (fun k i => ?_) all
  obtain ⟨j, same⟩ := Assign.raise_upBy m (n + k) i
  rw [Assign.upBy_upBy, same]
  exact stable.everywhere_var j

/-- A stable condition is kept by an instantiation with terms in which it holds. -/
theorem inst (all : Everywhere P t) (placed : ∀ i, Everywhere P (σ i)) : Everywhere P (t.inst σ) := by
  refine stable.inst_of_upBy (fun n => ?_) all
  induction n with
  | zero => exact placed
  | succ n ih =>
      intro i
      cases i with
      | zero => exact stable.everywhere_var 0
      | succ i =>
          rw [Assign.upBy, Assign.up_succ]
          exact stable.raise (ih i) 1 0

/-- A stable condition is kept by closing a binder. -/
theorem close (all : Everywhere P t) (values : Everywhere P value) :
    Everywhere P (t.inst (Assign.close value)) := by
  refine stable.inst all fun i => ?_
  cases i with
  | zero => exact values
  | succ i => exact stable.everywhere_var i

/-- A stable condition holds in an application if it does in both parts. -/
theorem app {erased : Bool} {fn arg : Term} (fns : Everywhere P fn) (args : Everywhere P arg) :
    Everywhere P (.app erased fn arg) :=
  (stable.everywhere_iff rfl).2 (by simp [Term.parts, fns, args])

/-- A stable condition holds in a duplication if it does in both parts. -/
theorem dup {name : String} {body : Term} (values : Everywhere P value)
    (bodies : Everywhere P body) : Everywhere P (.dup name value body) :=
  (stable.everywhere_iff rfl).2 (by simp [Term.parts, values, bodies])

/-- A stable condition holds in a spine if it does in the head and the arguments. -/
theorem apply {head : Term} {args : List (Bool × Term)} (heads : Everywhere P head)
    (all : ∀ arg ∈ args, Everywhere P arg.2) : Everywhere P (head.apply args) := by
  induction args generalizing head with
  | nil => exact heads
  | cons arg args ih =>
      rw [List.forall_mem_cons] at all
      exact ih (stable.app heads all.1) all.2

omit stable in
/-- A stable condition that holds in a spine holds in the head and the arguments. -/
theorem args_of_apply {head : Term} {args : List (Bool × Term)}
    (all : Everywhere P (head.apply args)) : Everywhere P head ∧ ∀ arg ∈ args, Everywhere P arg.2 := by
  induction args generalizing head with
  | nil => exact ⟨all, by simp⟩
  | cons arg args ih =>
      obtain ⟨first, rest⟩ := @ih (.app arg.1 head arg.2) all
      exact ⟨first.part (.head _), List.forall_mem_cons.2 ⟨first.part (.tail _ (.head _)), rest⟩⟩

/-- A duplication that moves outward keeps the condition. -/
theorem floats {E : Frame} {name : String} {body : Term}
    (all : Everywhere P (E.fill (.dup name value body))) :
    Everywhere P (.dup name value (E.lift.fill body)) := by
  have room : ∀ n {t : Term}, Everywhere P t → Everywhere P (t.inst ((Assign.raise 1).upBy n)) :=
    fun n _ all => stable.raise all 1 n
  cases E with
  | app =>
      have inner := all.part (.head _)
      exact stable.dup (inner.part (.head _)) (stable.app (inner.part (.tail _ (.head _)))
        (room 0 (all.part (.tail _ (.head _)))))
  | split =>
      have inner := all.part (.head _)
      have motives := all.part (.tail _ (.head _))
      have bodies := all.part (.tail _ (.tail _ (.head _)))
      refine stable.dup (inner.part (.head _)) ((stable.everywhere_iff rfl).2 ?_)
      simp only [Term.parts, Frame.lift, Frame.inst, Frame.fill, List.forall_mem_cons]
      exact ⟨inner.part (.tail _ (.head _)), room 1 motives, room 2 bodies, by simp⟩
  | caseOf =>
      rw [stable.everywhere_iff rfl] at all
      simp only [Frame.fill, Term.parts_caseOf, List.forall_mem_cons, List.forall_mem_map] at all
      obtain ⟨types, inner, motives, branches⟩ := all
      refine stable.dup (inner.part (.head _)) ((stable.everywhere_iff rfl).2 ?_)
      simp only [Frame.lift, Frame.inst, Frame.fill, Term.parts_caseOf, List.forall_mem_cons,
        List.forall_mem_map, Entries.terms_map]
      exact ⟨room 0 types, inner.part (.tail _ (.head _)), room 1 motives,
        fun branch mem => room 0 (branches branch mem)⟩
  | dup =>
      have inner := all.part (.head _)
      exact stable.dup (inner.part (.head _)) (stable.dup (inner.part (.tail _ (.head _)))
        (room 1 (all.part (.tail _ (.head _)))))

/-- The rules keep the condition. -/
theorem contracts (contracts : Contracts .exact .empty t u) (all : Everywhere P t) :
    Everywhere P u := by
  rcases contracts_exact_iff.1 contracts with computes | floats
  · cases computes with
    | beta =>
        exact stable.close ((all.part (.head _)).part (.tail _ (.head _)))
          (all.part (.tail _ (.head _)))
    | unpair =>
        have pair := all.part (.head _)
        exact stable.close (stable.close (all.part (.tail _ (.tail _ (.head _))))
          (stable.raise (pair.part (.tail _ (.tail _ (.head _)))) 1 0))
          (pair.part (.tail _ (.head _)))
    | unbox =>
        exact stable.close (all.part (.tail _ (.head _))) ((all.part (.head _)).part (.head _))
    | select type label ctrType args name motive branches branch found =>
        have value := all.part (.tail _ (.head _))
        exact stable.apply (all.branch (Entries.mem_of_find? found)) (args_of_apply value).2
    | unfold name t found => cases found
  · cases floats with
    | out E name value body => exact stable.floats all

/-- Rewriting keeps the condition. -/
theorem step (step : Step .exact .empty t u) (all : Everywhere P t) : Everywhere P u := by
  induction t using Term.byParts generalizing u with
  | step t ih =>
      rcases step.root_or_parts with contracts | parts
      · exact stable.contracts contracts all
      · refine .intro ?_ ?_
        · cases t with
          | hole =>
              obtain rfl := (Parted.leaf_iff rfl).1 parts
              exact all.here
          | data => exact stable.data_parts all.here (parts.imp fun _ _ _ step => step.to_reflTransGen)
          | _ => exact stable.ordinary parts.ordinary_eq
        · have kept : Parted (fun p q => Everywhere P p → Everywhere P q) t u := by
            refine parts.imp fun part mem p step all => ?_
            cases step with
            | refl => exact all
            | single step => exact ih part mem step all
          exact forall_mem_of_forall₂ kept.forall_parts (fun part mem => all.part mem)
            fun _ _ keeps => keeps.2

/-- A stable condition is kept by rewriting. -/
theorem steps (steps : Steps .exact .empty t u) (all : Everywhere P t) : Everywhere P u := by
  induction steps with
  | refl => exact all
  | tail _ step ih => exact stable.step step ih

end Stable

namespace Term

variable {erased : Bool} {name fstName sndName : String} {a b c : Term} {entries : Entries}

/-- A term is solid if it is there and its parts are solid. -/
theorem solid_iff {t : Term} :
    t.solid = true ↔ t.isHole = false ∧ ∀ part ∈ t.parts, part.2.solid = true := by
  rw [solid, everywhere_iff, Bool.not_eq_true']
  rfl

/-- A variable is solid. -/
@[simp] theorem solid_var (i : Int) : (var i).solid = true := rfl

/-- The universe is solid. -/
@[simp] theorem solid_univ : univ.solid = true := rfl

/-- A function type is solid if its domain and codomain are. -/
@[simp] theorem solid_pi : (pi erased name a b).solid = (a.solid && b.solid) := rfl

/-- A lambda is solid if its domain and body are. -/
@[simp] theorem solid_lam : (lam erased name a b).solid = (a.solid && b.solid) := rfl

/-- An application is solid if the function and the argument are. -/
@[simp] theorem solid_app : (app erased a b).solid = (a.solid && b.solid) := rfl

/-- A pair type is solid if both types are. -/
@[simp] theorem solid_sigma : (sigma erased name a b).solid = (a.solid && b.solid) := rfl

/-- A pair is solid if its type and components are. -/
@[simp] theorem solid_pair : (pair erased a b c).solid = (a.solid && b.solid && c.solid) := rfl

/-- A split is solid if its scrutinee, motive and body are. -/
@[simp] theorem solid_split :
    (split erased a name b fstName sndName c).solid = (a.solid && b.solid && c.solid) := rfl

/-- A declaration is solid if its type and constructors are. -/
@[simp] theorem solid_data :
    (data name a entries).solid = (a.solid && entries.toList.all fun entry => entry.2.solid) := by
  simp [solid, everywhere, Entries.everywhere_eq_all, isHole]

/-- A constructor is solid if its declaration is. -/
@[simp] theorem solid_ctr : (ctr name a).solid = a.solid := rfl

/-- A case analysis is solid if its declaration, scrutinee, motive and branches are. -/
@[simp] theorem solid_caseOf : (caseOf a b name c entries).solid =
    (a.solid && b.solid && c.solid && entries.toList.all fun entry => entry.2.solid) := by
  simp [solid, everywhere, Entries.everywhere_eq_all, isHole]

/-- A duplication is solid if its value and body are. -/
@[simp] theorem solid_dup : (dup name a b).solid = (a.solid && b.solid) := rfl

/-- A box is solid if its content is. -/
@[simp] theorem solid_box : (box a).solid = a.solid := rfl

/-- A box type is solid if the type of the content is. -/
@[simp] theorem solid_boxType : (boxType a).solid = a.solid := rfl

/-- There being no gap is a stable condition. -/
theorem stable_solid : Stable fun t => (!t.isHole) = true where
  ordinary := by
    intro t ordinary
    cases t <;> first | rfl | cases ordinary
  data_inst := fun _ _ => rfl
  data_parts := by
    intro name type ctrs u _ parts
    obtain ⟨_, _, -, -, rfl⟩ := Parted.data_iff.1 parts
    rfl

/-- A term is solid if nothing in it is a gap. -/
theorem solid_iff_everywhere {t : Term} :
    t.solid = true ↔ Everywhere (fun u => (!u.isHole) = true) t :=
  everywhere_iff_everywhere

/-- Making room in a solid term leaves no gap. -/
theorem solid_raise {t : Term} (solid : t.solid = true) (m n : Nat) :
    (t.inst ((Assign.raise m).upBy n)).solid = true :=
  solid_iff_everywhere.2 (stable_solid.raise (solid_iff_everywhere.1 solid) m n)

/-- Closing a binder of a solid term with a solid value leaves no gap. -/
theorem solid_close {t value : Term} (solid : t.solid = true) (solid' : value.solid = true) :
    (t.inst (Assign.close value)).solid = true :=
  solid_iff_everywhere.2
    (stable_solid.close (solid_iff_everywhere.1 solid) (solid_iff_everywhere.1 solid'))

end Term

/-- Rewriting keeps solid terms solid. -/
theorem Steps.solid {t u : Term} (steps : Steps .exact .empty t u) (solid : t.solid = true) :
    u.solid = true :=
  Term.solid_iff_everywhere.2 (Term.stable_solid.steps steps (Term.solid_iff_everywhere.1 solid))

/-- If the term is a declaration, its constructors are functions into the declared type. -/
def Term.DeclaresProperly : Term → Prop
  | .data _ _ ctrs => ctrs.Proper
  | _ => True

/-- That all declarations are proper is a stable condition. -/
theorem stable_proper : Stable Term.DeclaresProperly where
  ordinary := by
    intro t ordinary
    cases t <;> trivial
  data_inst := by
    intro name type ctrs σ proper
    rw [Term.inst_data]
    exact Entries.Proper.inst proper σ
  data_parts := by
    intro name type ctrs u proper parts
    obtain ⟨_, _, -, related, rfl⟩ := Parted.data_iff.1 parts
    exact Entries.Proper.related proper related

/-- The meter of a run that is not canceled and has met no gap. -/
def Meter.Smooth (m : Meter) : Prop :=
  m.canceled = false ∧ (m.stopped = none ∨ m.stopped = some .outOfFuel)

/-- A step on a smooth meter leaves it smooth, whether it is granted or not. -/
theorem Meter.Smooth.fire {m m' : Meter} {granted : Bool} (smooth : m.Smooth)
    (fire : m.fire = (granted, m')) : m'.Smooth := by
  obtain ⟨-, eq⟩ | ⟨-, -, eq⟩ | ⟨-, -, polls, -⟩ | ⟨running, -, -, eq⟩ := m.fire_cases
  · rw [eq] at fire
    cases fire
    exact smooth
  · rw [eq] at fire
    cases fire
    exact ⟨smooth.1, .inr rfl⟩
  · simp [Meter.polls, smooth.1] at polls
  · rw [eq] at fire
    cases fire
    exact smooth

/-- A reduction of solid terms that is not canceled meets no gap. -/
theorem Run.smooth {jobs : List (Bool × Term)} {m m' : Meter} {us : List Term}
    (run : Run .exact .empty jobs m us m') (solid : ∀ job ∈ jobs, job.2.solid = true)
    (smooth : m.Smooth) : m'.Smooth := by
  have inside : ∀ {t : Term}, t.solid = true →
      (∀ job ∈ t.early, job.2.solid = true) ∧ ∀ job ∈ t.late, job.2.solid = true :=
    fun solid => Term.forall_jobs (fun u => u.solid = true) (Term.solid_iff.1 solid).2
  induction run with
  | nil => exact smooth
  | cons job jobs m u m₁ us m₂ _ _ ih ih' =>
      rw [List.forall_mem_cons] at solid
      exact ih' solid.2 (ih (by simpa using solid.1) smooth)
  | need t m u m₁ _ ih =>
      have there := (Term.solid_iff.1 (solid _ List.mem_cons_self)).1
      rw [Meter.need, there] at ih
      exact ih (by simpa using solid) smooth
  | stay t m ps m₁ qs m₂ _ _ _ ih ih' =>
      obtain ⟨early, late⟩ := inside (solid _ List.mem_cons_self)
      exact ih' late (ih early smooth)
  | refused t m ps m₁ c m₂ qs m₃ _ _ fire _ ih ih' =>
      obtain ⟨early, late⟩ := inside (solid _ List.mem_cons_self)
      exact ih' late ((ih early smooth).fire fire)
  | fired t m ps m₁ c m₂ u m₃ run some fire _ ih ih' =>
      have whole := solid _ List.mem_cons_self
      have before : Steps .exact .empty t (t.withParts (ps ++ t.late.map Prod.snd)) := by
        refine steps_of_jobs run.steps ?_
        rw [List.forall₂_map_right_iff, List.forall₂_same]
        exact fun _ _ => .refl
      have after : c.term.solid = true :=
        Steps.solid (before.tail (.root _ _ ⟨c, some, rfl⟩)) whole
      have inner : c.inner.solid = true := by
        cases c with
        | plain => exact after
        | under =>
            rw [Contractum.term, Term.solid_dup, Bool.and_eq_true] at after
            exact after.2
      exact ih' (by simpa using inner) ((ih (inside whole).1 smooth).fire fire)

end BoxCalculus
