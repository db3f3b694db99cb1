import BoxCalculus.Proofs.Confluence

/-!
# Conversion

`Conv t u` says that two terms can be rewritten to one term. By confluence this is an equivalence, and
it is a congruence that is stable under instantiation.

No rule looks at the root of a rigid term: a type former, a value that is no function, or one of these
or a variable applied to arguments. Convertible rigid terms have the same form and convertible parts
(`Conv.parts`).
-/

namespace BoxCalculus

open Relation (ReflTransGen)

/-- The terms can be rewritten to one term. -/
def Conv (t u : Term) : Prop :=
  ∃ w, Steps .exact .empty t w ∧ Steps .exact .empty u w

/-- Related parts are related the other way by the converse. -/
theorem Parted.symm {R : Term → Term → Prop} {t u : Term} (parted : Parted R t u) :
    Parted (fun p q => R q p) u t := by
  have each := parted.forall_parts
  obtain ⟨ps, related, rfl⟩ := parted
  refine ⟨t.parts.map Prod.snd, ?_, ?_⟩
  · rw [List.forall₂_map_right_iff]
    exact each.flip.imp fun _ _ h => h.2
  · rw [Term.withParts_withParts _ related.length_eq.symm (by simp), Term.withParts_parts]

namespace Conv

/-- Conversion is reflexive. -/
theorem refl (t : Term) : Conv t t :=
  ⟨t, .refl, .refl⟩

/-- Conversion is symmetric. -/
theorem symm {t u : Term} (conv : Conv t u) : Conv u t :=
  let ⟨w, left, right⟩ := conv
  ⟨w, right, left⟩

/-- Conversion is transitive, by confluence. -/
theorem trans {t u v : Term} (first : Conv t u) (second : Conv u v) : Conv t v := by
  obtain ⟨w, left, right⟩ := first
  obtain ⟨w', left', right'⟩ := second
  obtain ⟨x, join, join'⟩ := confluent Env.closed_empty right left'
  exact ⟨x, left.trans join, right'.trans join'⟩

/-- A term is convertible to what it rewrites to. -/
theorem of_steps {t u : Term} (steps : Steps .exact .empty t u) : Conv t u :=
  ⟨u, steps, .refl⟩

/-- Terms with convertible parts are convertible. -/
theorem of_parts {t u : Term} (parted : Parted Conv t u) : Conv t u := by
  have joined : ∃ x, Parted (Steps .exact .empty) u x ∧ Parted (Steps .exact .empty) t x := by
    refine parted.join (S := Eq) (Parted.of_refl fun _ _ => rfl) fun part _ p q conv same => ?_
    obtain ⟨w, left, right⟩ := conv
    exact ⟨w, right, same ▸ left⟩
  obtain ⟨x, right, left⟩ := joined
  exact ⟨x, parts_steps left, parts_steps right⟩

end Conv

/-- Rules apply to instances as well. -/
theorem Contracts.inst {t u : Term} (contracts : Contracts .exact .empty t u) (σ : Assign) :
    Contracts .exact .empty (t.inst σ) (u.inst σ) := by
  rcases contracts_exact_iff.1 contracts with computes | floats
  · exact .of_computes (computes.inst Env.closed_empty σ)
  · exact .of_floats (floats.inst σ)

namespace Conv

/-- Convertible terms stay convertible when variables are replaced by convertible terms. -/
theorem inst {t u : Term} {σ τ : Assign} (conv : Conv t u) (assigned : ∀ i, Conv (σ i) (τ i)) :
    Conv (t.inst σ) (u.inst τ) := by
  obtain ⟨w, left, right⟩ := conv
  choose ρ lefts rights using assigned
  exact ⟨w.inst ρ, steps_inst (fun _ _ σ h => h.inst σ) left lefts,
    steps_inst (fun _ _ σ h => h.inst σ) right rights⟩

/-- Conversion is kept by instantiation. -/
theorem inst_same {t u : Term} (conv : Conv t u) (σ : Assign) : Conv (t.inst σ) (u.inst σ) :=
  conv.inst fun _ => .refl _

/-- Conversion is kept below a new binder. -/
theorem raise {t u : Term} (conv : Conv t u) :
    Conv (t.inst (Assign.raise 1)) (u.inst (Assign.raise 1)) :=
  conv.inst_same _

/-- Conversion is kept by closing a binder with convertible values. -/
theorem close {t u v w : Term} (conv : Conv t u) (values : Conv v w) :
    Conv (t.inst (Assign.close v)) (u.inst (Assign.close w)) := by
  refine conv.inst fun i => ?_
  cases i with
  | zero => exact values
  | succ i => exact .refl _

end Conv

/-- No rule looks at the root of the term, and the term is no function. -/
def Term.rigid : Term → Bool
  | .var _ | .univ | .pi _ _ _ _ | .sigma _ _ _ _ | .pair _ _ _ _ | .data _ _ _ | .ctr _ _ |
    .box _ | .boxType _ => true
  | .app _ fn _ => fn.rigid
  | _ => false

/-- No rule applies at the root of a rigid term. -/
theorem Term.contract?_rigid {ar : Arith} {env : Env} {t : Term} (rigid : t.rigid = true) :
    t.contract? ar env = none := by
  cases t with
  | app erased fn arg => cases fn <;> first | rfl | cases rigid
  | _ => first | rfl | cases rigid

/-- A step in a rigid term is a step in one of its parts. -/
theorem rigid_parts {t u : Term} (rigid : t.rigid = true) (step : Step .exact .empty t u) :
    Parted (Relation.ReflGen (Step .exact .empty)) t u := by
  rcases step.root_or_parts with ⟨c, found, -⟩ | parts
  · rw [Term.contract?_rigid rigid] at found
    cases found
  · exact parts

/-- A form that is no application stays rigid when its parts change. -/
theorem Term.rigid_withParts {t : Term} (other : ∀ erased fn arg, t ≠ .app erased fn arg)
    (ps : List Term) : (t.withParts ps).rigid = t.rigid := by
  unfold Term.withParts
  split <;> first | rfl | exact absurd rfl (other _ _ _)

/-- A rigid term stays rigid when it is rewritten. -/
theorem rigid_step {t u : Term} (rigid : t.rigid = true) (step : Step .exact .empty t u) :
    u.rigid = true := by
  induction t generalizing u with
  | app erased fn arg fn_ih =>
      obtain ⟨fn', arg', fn_step, -, rfl⟩ := Parted.app_iff.1 (rigid_parts rigid step)
      cases fn_step with
      | refl => exact rigid
      | single fn_step =>
          have head : fn'.rigid = true := fn_ih rigid fn_step
          exact head
  | _ =>
      obtain ⟨ps, -, rfl⟩ := rigid_parts rigid step
      rw [Term.rigid_withParts (by rintro _ _ _ ⟨⟩), rigid]

/-- A rewriting of a rigid term rewrites its parts. -/
theorem rigid_steps {t u : Term} (rigid : t.rigid = true) (steps : Steps .exact .empty t u) :
    Parted (Steps .exact .empty) t u ∧ u.rigid = true := by
  induction steps using ReflTransGen.head_induction_on with
  | refl => exact ⟨Parted.of_refl fun _ _ => .refl, rigid⟩
  | head step _ ih =>
      obtain ⟨parts, rigid'⟩ := ih (rigid_step rigid step)
      refine ⟨((rigid_parts rigid step).trans parts).imp ?_, rigid'⟩
      rintro part - p ⟨q, first, rest⟩
      exact first.to_reflTransGen.trans rest

namespace Conv

/-- Convertible rigid terms have the same form and convertible parts. -/
theorem parts {t u : Term} (conv : Conv t u) (left : t.rigid = true) (right : u.rigid = true) :
    Parted Conv t u := by
  obtain ⟨w, steps, steps'⟩ := conv
  exact ((rigid_steps left steps).1.trans (rigid_steps right steps').1.symm).imp
    fun _ _ _ join => join

/-- A normal form of a rigid term is reached by rewriting its parts. -/
theorem normal_parts {t u : Term} (conv : Conv t u) (normal : Normal .exact .empty t)
    (rigid : u.rigid = true) : Parted (Steps .exact .empty) u t ∧ t.rigid = true := by
  obtain ⟨w, steps, steps'⟩ := conv
  rw [normal.steps_eq steps] at steps'
  exact rigid_steps rigid steps'

/-- Convertible normal forms are equal. -/
theorem eq_of_normal {t u : Term} (conv : Conv t u) (left : Normal .exact .empty t)
    (right : Normal .exact .empty u) : t = u := by
  obtain ⟨w, steps, steps'⟩ := conv
  rw [← left.steps_eq steps, ← right.steps_eq steps']

section Forms

variable {erased erased' : Bool} {name name' : String} {a a' b b' : Term} {entries entries' : Entries}

/-- Convertible function types have convertible parts. -/
theorem pi_inj (conv : Conv (.pi erased name a b) (.pi erased' name' a' b')) :
    Conv a a' ∧ Conv b b' := by
  obtain ⟨_, _, dom, cod, same⟩ := Parted.pi_iff.1 (conv.parts rfl rfl)
  cases same
  exact ⟨dom, cod⟩

/-- Convertible pair types have convertible parts. -/
theorem sigma_inj (conv : Conv (.sigma erased name a b) (.sigma erased' name' a' b')) :
    Conv a a' ∧ Conv b b' := by
  obtain ⟨_, _, fst, snd, same⟩ := Parted.sigma_iff.1 (conv.parts rfl rfl)
  cases same
  exact ⟨fst, snd⟩

/-- Convertible boxes have convertible contents. -/
theorem box_inj (conv : Conv (.box a) (.box a')) : Conv a a' := by
  obtain ⟨_, value, same⟩ := Parted.box_iff.1 (conv.parts rfl rfl)
  cases same
  exact value

/-- Convertible box types are those of convertible types. -/
theorem boxType_inj (conv : Conv (.boxType a) (.boxType a')) : Conv a a' := by
  obtain ⟨_, type, same⟩ := Parted.boxType_iff.1 (conv.parts rfl rfl)
  cases same
  exact type

/-- Convertible declarations have convertible types and constructors. -/
theorem data_inj (conv : Conv (.data name a entries) (.data name' a' entries')) :
    Conv a a' ∧ entries.Related Conv entries' := by
  obtain ⟨_, _, type, ctrs, same⟩ := Parted.data_iff.1 (conv.parts rfl rfl)
  cases same
  exact ⟨type, ctrs⟩

end Forms

end Conv

/-- What is applied in an application chain. -/
def Term.head : Term → Term
  | .app _ fn _ => fn.head
  | t => t

/-- Taking a spine apart ends at the head. -/
theorem Term.spineOnto_fst (t : Term) (args : List (Bool × Term)) :
    (t.spineOnto args).1 = t.head := by
  induction t generalizing args with
  | app erased fn arg fn_ih => exact fn_ih _
  | _ => rfl

/-- The head of a spine is that of the term. -/
theorem Term.spine_fst (t : Term) : t.spine.1 = t.head :=
  t.spineOnto_fst []

/-- Applying a term to arguments keeps its head. -/
@[simp] theorem Term.head_apply (t : Term) (args : List (Bool × Term)) :
    (t.apply args).head = t.head := by
  induction args generalizing t with
  | nil => rfl
  | cons arg args ih => exact ih (.app arg.1 t arg.2)

/-- A term is rigid if it is when applied to arguments. -/
@[simp] theorem Term.rigid_apply (t : Term) (args : List (Bool × Term)) :
    (t.apply args).rigid = t.rigid := by
  induction args generalizing t with
  | nil => rfl
  | cons arg args ih => exact ih (.app arg.1 t arg.2)

/-- The heads of convertible rigid terms are convertible. -/
theorem Conv.head {t u : Term} (conv : Conv t u) (left : t.rigid = true) (right : u.rigid = true) :
    Conv t.head u.head := by
  induction t generalizing u with
  | app erased fn arg fn_ih =>
      obtain ⟨fn', arg', fns, -, rfl⟩ := Parted.app_iff.1 (conv.parts left right)
      have heads : Conv fn.head fn'.head := fn_ih fns left right
      exact heads
  | _ =>
      cases u with
      | app erased fn arg =>
          obtain ⟨_, _, -, -, same⟩ := Parted.app_iff.1 (conv.parts left right).symm
          cases same
      | _ => exact conv

end BoxCalculus
