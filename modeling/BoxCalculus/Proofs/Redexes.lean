import BoxCalculus.Proofs.Rewriting
import Mathlib.Data.List.Induction

/-!
# Two kinds of redexes

With exact index arithmetic the rules fall into two groups. In the one a form meets the value it looks
for, or a reference its definition, and something is computed (`Computes`). In the other a
duplication stands where such a form looks, and moves outward around the form (`Floats`). The second
group is a single rule about frames: a `Frame` is a form with an empty place for the term it looks at.

`Compatible.transport` says that a computing redex whose parts are replaced by related ones is still a
redex of the same rule, and that its contractum is related, for every relation that is compatible with
the forms of terms and with instantiation.
-/

namespace BoxCalculus

open Relation (ReflGen ReflTransGen)

/-- A form with an empty place for the term it looks at. -/
inductive Frame where
  | app (erased : Bool) (arg : Term)
  | split (erased : Bool) (name : String) (motive : Term) (fstName sndName : String) (body : Term)
  | caseOf (type : Term) (name : String) (motive : Term) (branches : Entries)
  | dup (name : String) (body : Term)

namespace Frame

/-- The form with a term in its empty place. -/
def fill : Frame → Term → Term
  | app erased arg, t => .app erased t arg
  | split erased name motive fstName sndName body, t =>
      .split erased t name motive fstName sndName body
  | caseOf type name motive branches, t => .caseOf type t name motive branches
  | dup name body, t => .dup name t body

/-- Replace the free variables of the form. -/
def inst (σ : Assign) : Frame → Frame
  | app erased arg => app erased (arg.inst σ)
  | split erased name motive fstName sndName body =>
      split erased name (motive.inst σ.up) fstName sndName (body.inst σ.up.up)
  | caseOf type name motive branches =>
      caseOf (type.inst σ) name (motive.inst σ.up) (branches.map fun branch => branch.inst σ)
  | dup name body => dup name (body.inst σ.up)

/-- The form below one more binder. -/
def lift (E : Frame) : Frame :=
  E.inst (Assign.raise 1)

/-- A filled form is instantiated in the form and in the term. -/
theorem inst_fill (E : Frame) (t : Term) (σ : Assign) :
    (E.fill t).inst σ = (E.inst σ).fill (t.inst σ) := by
  cases E <;> simp [fill, inst]

/-- Two instantiations of a form in a row are one. -/
theorem inst_inst (E : Frame) (τ σ : Assign) :
    (E.inst τ).inst σ = E.inst fun i => (τ i).inst σ := by
  cases E <;> simp [inst, Term.inst_inst, Function.comp_def, Assign.up_up]

/-- Lifting a form commutes with instantiation. -/
theorem inst_lift (E : Frame) (σ : Assign) : E.lift.inst σ.up = (E.inst σ).lift := by
  rw [lift, lift, inst_inst, inst_inst]
  congr 1
  funext i
  rw [Assign.raise, Term.inst_var, Assign.up_succ]

/-- Closing the binder that a form was moved below. -/
theorem inst_lift_close (E : Frame) (value : Term) : E.lift.inst (Assign.close value) = E := by
  have closed : (fun i => (Assign.raise 1 i).inst (Assign.close value)) = fun i : Nat => .var i :=
    funext fun i => Term.inst_var (i + 1) _
  rw [lift, inst_inst, closed]
  cases E <;> simp [inst, Assign.up_self, Term.inst_self, Entries.map_eq_self]

end Frame

/-- A duplication moves outward around the form that looks at it. -/
inductive Floats : Term → Term → Prop where
  | out (E : Frame) (name : String) (value body : Term) :
      Floats (E.fill (.dup name value body)) (.dup name value (E.lift.fill body))

/-- A form meets the value it looks for, or a reference its definition. -/
inductive Computes (env : Env) : Term → Term → Prop where
  | beta (erased erased' name dom body arg) :
      Computes env (.app erased (.lam erased' name dom body) arg) (body.inst (Assign.close arg))
  | unpair (erased erased' type fst snd name motive fstName sndName body) :
      Computes env (.split erased (.pair erased' type fst snd) name motive fstName sndName body)
        ((body.inst (Assign.close (snd.inst (Assign.raise 1)))).inst (Assign.close fst))
  | unbox (name value body) :
      Computes env (.dup name (.box value) body) (body.inst (Assign.close value))
  | select (type label ctrType args name motive branches branch) :
      branches.find? label = some branch →
      Computes env (.caseOf type ((Term.ctr label ctrType).apply args) name motive branches)
        (branch.apply args)
  | unfold (name t) : env name = some t → Computes env (.ref name) t

namespace Term

/-- Applying to two lists of arguments is applying to one after the other. -/
theorem apply_append (head : Term) (args more : List (Bool × Term)) :
    head.apply (args ++ more) = (head.apply args).apply more :=
  List.foldl_append

/-- Taking a spine apart puts its arguments before those taken so far. -/
theorem spineOnto_apply (head : Term) (args more : List (Bool × Term)) :
    (head.apply args).spineOnto more = head.spineOnto (args ++ more) := by
  induction args generalizing head with
  | nil => rfl
  | cons arg args ih => exact ih (.app arg.1 head arg.2)

/-- The spine of a constructor applied to arguments. -/
theorem spine_apply_ctr (label : String) (type : Term) (args : List (Bool × Term)) :
    ((ctr label type).apply args).spine = (ctr label type, args) := by
  rw [spine, spineOnto_apply, List.append_nil]
  rfl

/-- A term is its head applied to its arguments. -/
theorem eq_apply_of_spine {t head : Term} {args : List (Bool × Term)} (h : t.spine = (head, args)) :
    t = head.apply args := by
  rw [← apply_spine t, h]

/-- A spine is instantiated in the head and in the arguments. -/
theorem inst_apply (head : Term) (args : List (Bool × Term)) (σ : Assign) :
    (head.apply args).inst σ =
      (head.inst σ).apply (args.map fun arg => (arg.1, arg.2.inst σ)) := by
  induction args generalizing head with
  | nil => rfl
  | cons arg args ih => exact ih (.app arg.1 head arg.2)

end Term

namespace Contracts

variable {env : Env} {t u : Term}

/-- Computing is one of the rules. -/
theorem of_computes (h : Computes env t u) : Contracts .exact env t u := by
  cases h with
  | beta => exact ⟨_, rfl, Term.subst_zero _ _⟩
  | unpair =>
      refine ⟨_, rfl, ?_⟩
      rw [Contractum.term, Term.subst_zero, Term.subst_zero, Term.shift_one]
  | unbox => exact ⟨_, rfl, Term.subst_zero _ _⟩
  | select type label ctrType args name motive branches branch found =>
      exact ⟨.plain (branch.apply args),
        by simp [Term.contract?, Term.spine_apply_ctr, found], rfl⟩
  | unfold name u found => exact ⟨.plain u, by simp [Term.contract?, found], rfl⟩

/-- Moving a duplication outward is one of the rules. -/
theorem of_floats (h : Floats t u) : Contracts .exact env t u := by
  obtain ⟨E, name, value, body⟩ := h
  cases E with
  | app => exact ⟨_, rfl, by rw [Contractum.term, Term.shift_one]; rfl⟩
  | split erased self motive fstName sndName last =>
      refine ⟨_, rfl, ?_⟩
      rw [Contractum.term, Term.shift_one_up, Term.shift_one_up_up]
      rfl
  | caseOf type self motive branches =>
      refine ⟨_, rfl, ?_⟩
      rw [Contractum.term, Term.shift_one_up]
      simp only [Term.shift_one]
      rfl
  | dup self last =>
      refine ⟨_, rfl, ?_⟩
      rw [Contractum.term, Term.shift_one_up]
      rfl

end Contracts

/-- The rules with exact index arithmetic. -/
theorem contracts_exact_iff {env : Env} {t u : Term} :
    Contracts .exact env t u ↔ Computes env t u ∨ Floats t u := by
  constructor
  · rintro ⟨contractum, found, rfl⟩
    have exact_rule : ∀ v, Computes env t v ∨ Floats t v → contractum.term = v := by
      intro v h
      have contracts : Contracts .exact env t v := h.elim .of_computes .of_floats
      obtain ⟨contractum', found', rfl⟩ := contracts
      rw [Option.some.inj (found.symm.trans found')]
    suffices rule : ∃ v, Computes env t v ∨ Floats t v by
      obtain ⟨v, h⟩ := rule
      rwa [exact_rule v h]
    clear exact_rule
    unfold Term.contract? at found
    split at found
    · obtain ⟨t, defined, -⟩ := Option.map_eq_some_iff.1 found
      exact ⟨_, .inl (.unfold _ t defined)⟩
    · exact ⟨_, .inl (.beta ..)⟩
    · exact ⟨_, .inr (.out (.app _ _) _ _ _)⟩
    · exact ⟨_, .inl (.unpair ..)⟩
    · exact ⟨_, .inr (.out (.split _ _ _ _ _ _) _ _ _)⟩
    · exact ⟨_, .inl (.unbox ..)⟩
    · exact ⟨_, .inr (.out (.dup _ _) _ _ _)⟩
    · rename_i type value self motive branches
      split at found
      · rename_i label ctrType args spine
        obtain ⟨branch, found, -⟩ := Option.map_eq_some_iff.1 found
        rw [Term.eq_apply_of_spine spine]
        exact ⟨_, .inl (.select _ _ _ _ _ _ _ branch found)⟩
      · rename_i name boxed inner spine
        rw [Term.eq_apply_of_spine spine]
        exact ⟨_, .inr (.out (.caseOf _ _ _ _) _ _ _)⟩
      · cases found
    · cases found
  · rintro (h | h)
    · exact .of_computes h
    · exact .of_floats h

/-- The terms of the definitions have no free variables. -/
def Env.Closed (env : Env) : Prop :=
  ∀ name t, env name = some t → t.closed = true

/-- The empty environment has no definition with a free variable. -/
theorem Env.closed_empty : Env.empty.Closed := by
  intro name t found
  cases found

/-- A duplication moves outward in instances as well. -/
theorem Floats.inst {t u : Term} (h : Floats t u) (σ : Assign) : Floats (t.inst σ) (u.inst σ) := by
  obtain ⟨E, name, value, body⟩ := h
  rw [Frame.inst_fill, Term.inst_dup, Term.inst_dup, Frame.inst_fill, Frame.inst_lift]
  exact .out ..

/-- What is found among mapped entries is what is found, mapped. -/
theorem Entries.find?_map (f : Term → Term) (wanted : String) : ∀ entries : Entries,
    (entries.map f).find? wanted = (entries.find? wanted).map f
  | .nil => rfl
  | .cons label term rest => by
      simp only [Entries.map, Entries.find?]
      split
      · rfl
      · exact Entries.find?_map f wanted rest

namespace Computes

variable {env : Env} {t u : Term}

/-- A redex computes to one term only. -/
theorem deterministic {u' : Term} (h : Computes env t u) (h' : Computes env t u') : u = u' := by
  obtain ⟨contractum, found, rfl⟩ := Contracts.of_computes h
  obtain ⟨contractum', found', rfl⟩ := Contracts.of_computes h'
  rw [Option.some.inj (found.symm.trans found')]

/-- An instance of a redex computes to the instance. -/
theorem inst (closed : env.Closed) (h : Computes env t u) (σ : Assign) :
    Computes env (t.inst σ) (u.inst σ) := by
  cases h with
  | beta =>
      rw [Term.inst_app, Term.inst_lam, Term.inst_close_inst]
      exact .beta ..
  | unpair =>
      rw [Term.inst_split, Term.inst_pair, Term.inst_close_inst, Term.inst_close_inst,
        Term.inst_raise_up]
      exact .unpair ..
  | unbox =>
      rw [Term.inst_dup, Term.inst_box, Term.inst_close_inst]
      exact .unbox ..
  | select type label ctrType args name motive branches branch found =>
      rw [Term.inst_caseOf, Term.inst_apply, Term.inst_apply, Term.inst_ctr]
      exact .select _ _ _ _ _ _ _ _ (by rw [Entries.find?_map, found]; rfl)
  | unfold name u found =>
      rw [Term.inst_ref, Term.inst_closed (closed name u found)]
      exact .unfold _ _ found

end Computes

/-- The term is a constructor applied to arguments. -/
def Term.built : Term → Bool
  | .ctr _ _ => true
  | .app _ fn _ => fn.built
  | _ => false

/-- A spine is built by a constructor if its head is. -/
theorem Term.built_apply (head : Term) (args : List (Bool × Term)) :
    (head.apply args).built = head.built := by
  induction args generalizing head with
  | nil => rfl
  | cons arg args ih => exact ih (.app arg.1 head arg.2)

/-- The term is of a form that rules look for: a function, a pair, a box, or a constructor applied to
arguments. -/
def Term.canonical : Term → Bool
  | .lam _ _ _ _ | .pair _ _ _ _ | .box _ => true
  | t => t.built

/-- A form that looks at a duplication is none that rules look for. -/
theorem Floats.not_canonical {t u : Term} (h : Floats t u) : t.canonical = false := by
  obtain ⟨E, name, value, body⟩ := h
  cases E <;> rfl

/-- A form that looks at a duplication does not compute. -/
theorem Computes.not_float {env : Env} {E : Frame} {name : String} {value body u : Term} :
    ¬ Computes env (E.fill (.dup name value body)) u := by
  generalize same : E.fill (.dup name value body) = t
  intro h
  cases h with
  | select type label ctrType args self motive branches branch found =>
      cases E with
      | caseOf =>
          injection same with _ scrutinee
          have built := Term.built_apply (.ctr label ctrType) args
          rw [← scrutinee] at built
          cases built
      | _ => cases same
  | _ => cases E <;> cases same

/-- A redex is none of the forms that rules look for. -/
theorem Computes.not_canonical {env : Env} {t u : Term} (h : Computes env t u) :
    t.canonical = false := by
  cases h <;> rfl

/-- `Compatible R` says that `R` holds of terms with related parts, keeps the canonical forms that
rules look for, and is stable under instantiation. -/
structure Compatible (R : Term → Term → Prop) : Prop where
  node : ∀ {t u}, Parted R t u → R t u
  canonical : ∀ {t u}, t.canonical = true → R t u → Parted R t u
  inst : ∀ {t u σ τ}, R t u → (∀ i, R (σ i) (τ i)) → R (t.inst σ) (u.inst τ)

namespace Compatible

variable {R : Term → Term → Prop} (compatible : Compatible R)
include compatible

/-- A compatible relation is reflexive. -/
theorem refl (t : Term) : R t t := by
  induction t using Term.byParts with
  | step t ih => exact compatible.node (Parted.of_refl ih)

/-- A compatible relation is kept below a new binder. -/
theorem raise {t u : Term} (related : R t u) :
    R (t.inst (Assign.raise 1)) (u.inst (Assign.raise 1)) :=
  compatible.inst related fun _ => compatible.refl _

/-- Closing a binder with related values. -/
theorem close {t u v w : Term} (related : R t u) (values : R v w) :
    R (t.inst (Assign.close v)) (u.inst (Assign.close w)) := by
  refine compatible.inst related fun i => ?_
  cases i with
  | zero => exact values
  | succ i => exact compatible.refl _

/-- Related heads applied to related arguments. -/
theorem apply {head head' : Term} {args args' : List (Bool × Term)} (heads : R head head')
    (each : List.Forall₂ (fun arg arg' => arg.1 = arg'.1 ∧ R arg.2 arg'.2) args args') :
    R (head.apply args) (head'.apply args') := by
  induction each generalizing head head' with
  | nil => exact heads
  | @cons arg arg' args args' related _ ih =>
      obtain ⟨erased, arg⟩ := arg
      obtain ⟨erased', arg'⟩ := arg'
      obtain ⟨rfl, related⟩ := related
      exact ih (compatible.node (Parted.app_iff.2 ⟨_, _, heads, related, rfl⟩))

/-- What is related to a constructor applied to arguments is one as well. -/
theorem apply_ctr {label : String} {type u : Term} {args : List (Bool × Term)}
    (related : R ((Term.ctr label type).apply args) u) :
    ∃ type' args', u = (Term.ctr label type').apply args' ∧
      List.Forall₂ (fun arg arg' => arg.1 = arg'.1 ∧ R arg.2 arg'.2) args args' := by
  induction args using List.reverseRecOn generalizing u with
  | nil =>
      obtain ⟨type', -, rfl⟩ := Parted.ctr_iff.1 (compatible.canonical rfl related)
      exact ⟨type', [], rfl, .nil⟩
  | append_singleton args arg ih =>
      rw [Term.apply_append] at related
      have built : ((Term.ctr label type).apply args).built = true := Term.built_apply _ args
      obtain ⟨fn', arg', first, last, rfl⟩ :=
        Parted.app_iff.1 (compatible.canonical built related)
      obtain ⟨type', args', rfl, each⟩ := ih first
      exact ⟨type', args' ++ [(arg.1, arg')], by rw [Term.apply_append]; rfl,
        Parted.forall_append_last.2 ⟨each, rfl, last⟩⟩

/-- A computing redex with related parts is one of the same rule, and computes something related. -/
theorem transport {env : Env} {t u t' : Term} (h : Computes env t u) (parts : Parted R t t') :
    ∃ u', Computes env t' u' ∧ R u u' := by
  cases h with
  | beta erased erased' name dom body arg =>
      obtain ⟨fn', arg', fn, args, rfl⟩ := Parted.app_iff.1 parts
      obtain ⟨dom', body', -, bodies, rfl⟩ := Parted.lam_iff.1 (compatible.canonical rfl fn)
      exact ⟨_, .beta .., compatible.close bodies args⟩
  | unpair erased erased' type fst snd name motive fstName sndName body =>
      obtain ⟨scrutinee', motive', body', scrutinee, -, bodies, rfl⟩ := Parted.split_iff.1 parts
      obtain ⟨type', fst', snd', -, fsts, snds, rfl⟩ :=
        Parted.pair_iff.1 (compatible.canonical rfl scrutinee)
      exact ⟨_, .unpair .., compatible.close (compatible.close bodies (compatible.raise snds)) fsts⟩
  | unbox name value body =>
      obtain ⟨value', body', values, bodies, rfl⟩ := Parted.dup_iff.1 parts
      obtain ⟨content', contents, rfl⟩ := Parted.box_iff.1 (compatible.canonical rfl values)
      exact ⟨_, .unbox .., compatible.close bodies contents⟩
  | select type label ctrType args name motive branches branch found =>
      obtain ⟨type', value', motive', branches', -, values, -, entries, rfl⟩ :=
        Parted.caseOf_iff.1 parts
      obtain ⟨ctrType', args', rfl, each⟩ := compatible.apply_ctr values
      obtain ⟨branch', found', related⟩ := entries.find? found
      exact ⟨_, .select _ _ _ _ _ _ _ _ found', compatible.apply related each⟩
  | unfold name u found =>
      obtain rfl := (Parted.leaf_iff rfl).1 parts
      exact ⟨u, .unfold _ _ found, compatible.refl u⟩

/-- A form with related terms in it keeps its frame, also below one more binder. -/
theorem frame {E : Frame} {v w : Term} (parts : Parted R (E.fill v) w) :
    ∃ (E' : Frame) (v' : Term), w = E'.fill v' ∧ R v v' ∧
      ∀ {b b'}, R b b' → Parted R (E.lift.fill b) (E'.lift.fill b') := by
  have raiseBy : ∀ n {p q}, R p q →
      R (p.inst ((Assign.raise 1).upBy n)) (q.inst ((Assign.raise 1).upBy n)) :=
    fun n _ _ related => compatible.inst related fun _ => compatible.refl _
  cases E with
  | app erased arg =>
      obtain ⟨fn', arg', fns, args, rfl⟩ := Parted.app_iff.1 parts
      exact ⟨.app erased arg', fn', rfl, fns,
        fun related => Parted.app_iff.2 ⟨_, _, related, raiseBy 0 args, rfl⟩⟩
  | split erased name motive fstName sndName body =>
      obtain ⟨_, motive', body', values, motives, bodies, rfl⟩ := Parted.split_iff.1 parts
      exact ⟨.split erased name motive' fstName sndName body', _, rfl, values,
        fun related => Parted.split_iff.2
          ⟨_, _, _, related, raiseBy 1 motives, raiseBy 2 bodies, rfl⟩⟩
  | caseOf type name motive branches =>
      obtain ⟨type', value', motive', branches', types, values, motives, entries, rfl⟩ :=
        Parted.caseOf_iff.1 parts
      refine ⟨.caseOf type' name motive' branches', value', rfl, values,
        fun related => Parted.caseOf_iff.2
          ⟨_, _, _, _, raiseBy 0 types, related, raiseBy 1 motives, ?_, rfl⟩⟩
      exact entries.map (raiseBy 0)
  | dup name body =>
      obtain ⟨value', body', values, bodies, rfl⟩ := Parted.dup_iff.1 parts
      exact ⟨.dup name body', value', rfl, values,
        fun related => Parted.dup_iff.2 ⟨_, _, related, raiseBy 1 bodies, rfl⟩⟩

end Compatible

section Steps

variable {R : Term → Term → Prop} (inert : ∀ t u, R t u → t.canonical = false)
include inert

/-- A step of a canonical term is a step of its parts. -/
theorem canonical_parts {t u : Term} (canonical : t.canonical = true) (step : Inside R t u) :
    Parted (ReflGen (Inside R)) t u := by
  rcases step.root_or_parts with root | parts
  · rw [inert t u root] at canonical
    cases canonical
  · exact parts

/-- A constructor applied to arguments stays one. -/
theorem built_step {t u : Term} (built : t.built = true) (step : Inside R t u) :
    u.built = true := by
  induction t generalizing u with
  | ctr name type =>
      obtain ⟨type', -, rfl⟩ := Parted.ctr_iff.1 (canonical_parts inert built step)
      rfl
  | app erased fn arg ih _ =>
      obtain ⟨fn', arg', fns, -, rfl⟩ := Parted.app_iff.1 (canonical_parts inert built step)
      cases fns with
      | refl => exact built
      | single step =>
          have head : fn'.built = true := ih built step
          exact head
  | _ => cases built

/-- A form that rules look for stays one. -/
theorem canonical_step {t u : Term} (canonical : t.canonical = true) (step : Inside R t u) :
    u.canonical = true := by
  have parts := canonical_parts inert canonical step
  cases t with
  | lam =>
      obtain ⟨_, _, -, -, rfl⟩ := Parted.lam_iff.1 parts
      rfl
  | pair =>
      obtain ⟨_, _, _, -, -, -, rfl⟩ := Parted.pair_iff.1 parts
      rfl
  | box =>
      obtain ⟨_, -, rfl⟩ := Parted.box_iff.1 parts
      rfl
  | ctr =>
      obtain ⟨_, -, rfl⟩ := Parted.ctr_iff.1 parts
      rfl
  | app erased fn arg =>
      have built : (Term.app erased fn arg).built = true := canonical
      have built' := built_step inert built step
      obtain ⟨_, _, -, -, rfl⟩ := Parted.app_iff.1 parts
      exact built'
  | _ => cases canonical

/-- A form that rules look for is rewritten in its parts. -/
theorem canonical_steps {t u : Term} (canonical : t.canonical = true)
    (steps : ReflTransGen (Inside R) t u) : Parted (ReflTransGen (Inside R)) t u := by
  induction steps using ReflTransGen.head_induction_on with
  | refl => exact Parted.of_refl fun _ _ => .refl
  | head step _ ih =>
      refine ((canonical_parts inert canonical step).trans
        (ih (canonical_step inert canonical step))).imp ?_
      rintro part - p ⟨q, first, rest⟩
      exact first.to_reflTransGen.trans rest

/-- Steps are compatible if rules apply to no canonical terms and are stable under instantiation. -/
theorem compatible_steps (stable : ∀ t u σ, R t u → R (t.inst σ) (u.inst σ)) :
    Compatible (ReflTransGen (Inside R)) :=
  ⟨parts_steps, canonical_steps inert, steps_inst stable⟩

end Steps

end BoxCalculus
