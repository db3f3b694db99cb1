import BoxCalculus.Proofs.Instantiation
import BoxCalculus.Reduction.Rules
import Mathlib.Logic.Relation

/-!
# Rewriting

`Contracts ar env t u` says that a rule takes `t` to `u` at its root, and `Step ar env t u` that one
does so somewhere in `t`. A term to which no rule applies is normal.

`Inside R` is the closure of a relation under all positions in a term. Its finitely many steps can be
taken in all parts of a term (`parts_steps`), and can be instantiated if those of `R` can
(`Inside.inst`, `steps_inst`).

The steps of a term can be enumerated (`Step.mem_nexts`), and so can all that it rewrites to if some
terms are closed under steps (`mem_of_steps`).
-/

namespace BoxCalculus

open Relation (ReflGen ReflTransGen)

/-- `Inside R t u` says that `R` takes a subterm of `t` to another one, and `t` to `u` thereby. -/
inductive Inside (R : Term → Term → Prop) : Term → Term → Prop where
  | root (t u) : R t u → Inside R t u
  | part (t i n p p') :
      t.parts[i]? = some (n, p) → Inside R p p' →
      Inside R t (t.withParts ((t.parts.map Prod.snd).set i p'))

/-- A rule applies to the term at its root and gives the other one. -/
def Contracts (ar : Arith) (env : Env) (t u : Term) : Prop :=
  ∃ contractum, t.contract? ar env = some contractum ∧ contractum.term = u

/-- One application of a rule, anywhere in the term. -/
abbrev Step (ar : Arith) (env : Env) : Term → Term → Prop :=
  Inside (Contracts ar env)

/-- Any number of applications of rules, in any order. -/
abbrev Steps (ar : Arith) (env : Env) : Term → Term → Prop :=
  ReflTransGen (Step ar env)

/-- No rule applies anywhere in the term. -/
def Normal (ar : Arith) (env : Env) (t : Term) : Prop :=
  ∀ u, ¬ Step ar env t u

variable {R S : Term → Term → Prop} {t u : Term}

/-- A step inside a term is one of each weaker relation. -/
theorem Inside.mono (weaker : ∀ t u, R t u → S t u) (step : Inside R t u) : Inside S t u := by
  induction step with
  | root t u h => exact .root t u (weaker t u h)
  | part t i n p p' here _ ih => exact .part t i n p p' here ih

/-- A step in one of the parts that have been put in their place. -/
theorem Inside.withParts {before after : List Term} {p p' : Term} (step : Inside R p p')
    (same : (before ++ p :: after).length = t.parts.length) :
    Inside R (t.withParts (before ++ p :: after)) (t.withParts (before ++ p' :: after)) := by
  have parts := Term.parts_withParts same
  have terms := Term.terms_withParts same
  obtain ⟨n, here⟩ :
      ∃ n, (t.withParts (before ++ p :: after)).parts[before.length]? = some (n, p) := by
    have within : before.length < t.parts.length := by simp [← same]
    refine ⟨(t.parts[before.length]).1, ?_⟩
    rw [parts, List.getElem?_eq_getElem (by simp; omega), List.getElem_zip]
    simp
  have done := Inside.part _ _ n p p' here step
  rw [terms, List.set_append_right _ _ (Nat.le_refl _), Nat.sub_self, List.set_cons_zero,
    Term.withParts_withParts _ same (by simpa using same)] at done
  exact done

/-- Parts can be rewritten one after the other, behind some that stay. -/
theorem steps_withParts {olds news : List Term} (each : List.Forall₂ (ReflTransGen (Inside R)) olds news) :
    ∀ {before : List Term}, (before ++ olds).length = t.parts.length →
      ReflTransGen (Inside R) (t.withParts (before ++ olds)) (t.withParts (before ++ news)) := by
  induction each with
  | nil => exact fun _ => .refl
  | @cons old new olds news steps _ ih =>
      intro before same
      have here : ReflTransGen (Inside R) (t.withParts (before ++ old :: olds))
          (t.withParts (before ++ new :: olds)) := by
        refine ReflTransGen.lift (fun p => t.withParts (before ++ p :: olds)) ?_ _ _ steps
        exact fun p p' step => step.withParts (by simpa using same)
      have rest := @ih (before ++ [new]) (by simpa using same)
      rw [List.append_assoc, List.append_assoc] at rest
      exact here.trans rest

/-- Steps in the parts of a term are steps of the term. -/
theorem parts_steps (parted : Parted (ReflTransGen (Inside R)) t u) :
    ReflTransGen (Inside R) t u := by
  obtain ⟨ps, each, rfl⟩ := parted
  have steps := @steps_withParts R t (t.parts.map Prod.snd) ps
    (List.forall₂_map_left_iff.2 each) [] (by simp)
  rwa [List.nil_append, List.nil_append, Term.withParts_parts] at steps

/-- A step of a term is a step at its root, or one in one of its parts. -/
theorem Inside.root_or_parts (step : Inside R t u) :
    R t u ∨ Parted (ReflGen (Inside R)) t u := by
  cases step with
  | root _ _ h => exact .inl h
  | part _ i n p p' here step =>
      refine .inr ⟨(t.parts.map Prod.snd).set i p', ?_, rfl⟩
      rw [List.forall₂_iff_get]
      refine ⟨by simp, fun j within within' => ?_⟩
      by_cases same : i = j
      · subst same
        obtain ⟨_, found⟩ := List.getElem?_eq_some_iff.1 here
        simpa [found] using ReflGen.single step
      · simpa [List.getElem_set_ne same] using ReflGen.refl

/-- Replacing one part, when the parts are then mapped together with their binders. -/
theorem map_zip_set {α : Type} {f : Nat × Term → α} {parts : List (Nat × Term)} {i n : Nat}
    {p q : Term} (here : parts[i]? = some (n, p)) :
    ((parts.map Prod.fst).zip ((parts.map Prod.snd).set i q)).map f =
      (parts.map f).set i (f (n, q)) := by
  induction parts generalizing i with
  | nil => simp at here
  | cons part rest ih =>
      cases i with
      | zero =>
          simp only [List.getElem?_cons_zero, Option.some.injEq] at here
          simp [here, List.zip_map']
      | succ i => simpa using ih (by simpa using here)

/-- Steps in a part of a term are steps of the term, in which the part is replaced. -/
theorem steps_part {n : Nat} {p p' : Term} (mem : (n, p) ∈ t.parts)
    (steps : ReflTransGen (Inside R) p p') :
    ∃ u, ReflTransGen (Inside R) t u ∧ (n, p') ∈ u.parts := by
  induction steps with
  | refl => exact ⟨t, .refl, mem⟩
  | @tail q q' _ step ih =>
      obtain ⟨u, before, inside⟩ := ih
      obtain ⟨i, here⟩ := List.getElem?_of_mem inside
      refine ⟨_, before.tail (.part u i n q q' here step), ?_⟩
      have replaced := map_zip_set (f := id) (q := q') here
      rw [List.map_id, List.map_id] at replaced
      rw [Term.parts_withParts (by simp), replaced]
      exact List.mem_set (List.getElem?_eq_some_iff.1 here).1 _

/-- A normal term is no redex, and its parts are normal. -/
theorem normal_iff {ar : Arith} {env : Env} :
    Normal ar env t ↔ t.contract? ar env = none ∧ ∀ part ∈ t.parts, Normal ar env part.2 := by
  constructor
  · intro normal
    refine ⟨?_, fun part member u step => ?_⟩
    · cases found : t.contract? ar env with
      | none => rfl
      | some c => exact absurd (Inside.root _ _ ⟨c, found, rfl⟩) (normal c.term)
    · obtain ⟨i, here⟩ := List.getElem?_of_mem member
      exact normal _ (.part t i part.1 part.2 u here step)
  · rintro ⟨none, parts⟩ u step
    cases step with
    | root _ _ h =>
        obtain ⟨c, some, -⟩ := h
        rw [none] at some
        cases some
    | part _ i n p p' here step => exact parts _ (List.mem_of_getElem? here) p' step

/-- The parts of a normal term are normal. -/
theorem Normal.part {ar : Arith} {env : Env} (normal : Normal ar env t) {part : Nat × Term}
    (mem : part ∈ t.parts) : Normal ar env part.2 :=
  (normal_iff.1 normal).2 part mem

section Inst

variable (stable : ∀ t u σ, R t u → R (t.inst σ) (u.inst σ))
include stable

/-- Steps can be instantiated if the steps at the root can. -/
theorem Inside.inst (step : Inside R t u) (σ : Assign) : Inside R (t.inst σ) (u.inst σ) := by
  induction step generalizing σ with
  | root t u h => exact .root _ _ (stable t u σ h)
  | part t i n p p' here step ih =>
      have compound : ∀ j, t ≠ .var j := by
        rintro j rfl
        simp [Term.parts] at here
      have parts := Term.parts_inst σ compound
      have here' : (t.inst σ).parts[i]? = some (n, p.inst (σ.upBy n)) := by simp [parts, here]
      have step' := Inside.part _ i n _ _ here' (ih (σ.upBy n))
      have whole := @Term.withParts_withParts t
        (t.parts.map fun part => part.2.inst (σ.upBy part.1))
        (((t.inst σ).parts.map Prod.snd).set i (p'.inst (σ.upBy n))) (by simp) (by simp [parts])
      rw [← Term.inst_eq_withParts σ compound] at whole
      rw [whole] at step'
      rw [Term.inst_withParts σ compound (by simp), map_zip_set here]
      simpa [parts, Function.comp_def] using step'

/-- Instantiating with terms that take steps. -/
theorem steps_assign {σ τ : Assign} (steps : ∀ i, ReflTransGen (Inside R) (σ i) (τ i)) (t : Term) :
    ReflTransGen (Inside R) (t.inst σ) (t.inst τ) := by
  induction t using Term.byParts generalizing σ τ with
  | step t ih =>
      by_cases isVar : ∃ i, t = .var i
      · obtain ⟨i, rfl⟩ := isVar
        match i with
        | .ofNat i =>
            rw [Int.ofNat_eq_natCast, Term.inst_var, Term.inst_var]
            exact steps i
        | .negSucc i =>
            rw [Term.inst_negative (Int.negSucc_lt_zero i), Term.inst_negative (Int.negSucc_lt_zero i)]
      · rw [not_exists] at isVar
        have same : Parted Eq t t := Parted.of_refl fun _ _ => rfl
        refine parts_steps (same.inst isVar fun part member q equal => ?_)
        rw [← equal]
        refine ih part member (Assign.related_upBy .refl (fun t u steps => ?_) steps part.1)
        exact ReflTransGen.lift _ (fun _ _ step => step.inst stable _) _ _ steps

/-- Steps of a term and of what its variables stand for. -/
theorem steps_inst {σ τ : Assign} (steps : ReflTransGen (Inside R) t u)
    (assigned : ∀ i, ReflTransGen (Inside R) (σ i) (τ i)) :
    ReflTransGen (Inside R) (t.inst σ) (u.inst τ) := by
  have first : ReflTransGen (Inside R) (t.inst σ) (u.inst σ) :=
    ReflTransGen.lift (·.inst σ) (fun _ _ step => step.inst stable σ) _ _ steps
  exact first.trans (steps_assign stable assigned u)

end Inst

section Enumeration

variable {ar : Arith} {env : Env} {t u : Term} {n : Nat}

/-- Nothing in the term stands below `n` or more forms. -/
def Term.nestsBelow : Nat → Term → Bool
  | 0, _ => false
  | n + 1, t => t.parts.all fun part => part.2.nestsBelow n

/-- The terms to which the term rewrites in one step below fewer than `n` forms. -/
def Term.nexts (ar : Arith) (env : Env) : Nat → Term → List Term
  | 0, _ => []
  | n + 1, t => (t.contract? ar env).toList.map Contractum.term ++
      t.parts.zipIdx.flatMap fun part => (part.1.2.nexts ar env n).map fun p =>
        t.withParts ((t.parts.map Prod.snd).set part.2 p)

/-- The steps of a shallow term are enumerated. -/
theorem Step.mem_nexts (step : Step ar env t u) (shallow : t.nestsBelow n = true) :
    u ∈ t.nexts ar env n := by
  induction step generalizing n with
  | root t u contracts =>
      obtain ⟨c, found, rfl⟩ := contracts
      cases n with
      | zero => cases shallow
      | succ n => simp [Term.nexts, found]
  | part t i k p p' here _ ih =>
      cases n with
      | zero => cases shallow
      | succ n =>
          rw [Term.nestsBelow, List.all_eq_true] at shallow
          have inner := ih (shallow (k, p) (List.mem_of_getElem? here))
          refine List.mem_append_right _ (List.mem_flatMap.2 ⟨((k, p), i), ?_, ?_⟩)
          · exact List.mem_zipIdx_iff_getElem?.2 here
          · exact List.mem_map_of_mem inner

/-- What a term rewrites to is among some terms that are closed under steps. -/
theorem mem_of_steps {terms : List Term}
    (closed : ∀ t ∈ terms, t.nestsBelow n = true ∧ ∀ u ∈ t.nexts ar env n, u ∈ terms)
    (mem : t ∈ terms) (steps : Steps ar env t u) : u ∈ terms := by
  induction steps with
  | refl => exact mem
  | tail _ step ih => exact (closed _ ih).2 _ (step.mem_nexts (closed _ ih).1)

end Enumeration

end BoxCalculus
