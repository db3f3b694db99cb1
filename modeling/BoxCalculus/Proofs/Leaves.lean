import BoxCalculus.Proofs.Rules
import BoxCalculus.Proofs.Runs
import BoxCalculus.Proofs.Shape

/-!
# Conditions on variables and references

`LeavesIn V R t` says that `V` holds of the variables of `t` and `R` of its references, wherever they
stand. If `V` holds of all sums of indices, then shifting, substitution and the rules keep such a
condition, and so does a whole run (`Run.leavesIn`).
-/

namespace BoxCalculus

open Term (Everywhere)

variable {V : Int → Prop} {R : String → Prop} {ar : Arith} {env : Env}

/-- The condition on the term itself. -/
def Term.leafIn (V : Int → Prop) (R : String → Prop) : Term → Prop
  | .var i => V i
  | .ref name => R name
  | _ => True

/-- `V` holds of the variables of the term, and `R` of its references. -/
abbrev LeavesIn (V : Int → Prop) (R : String → Prop) (t : Term) : Prop :=
  Everywhere (Term.leafIn V R) t

/-- Is the term a variable or a reference? -/
def Term.isLeaf : Term → Bool
  | .var _ | .ref _ => true
  | _ => false

/-- The leaves of a compound term are those of its parts. -/
theorem leavesIn_iff {t : Term} (compound : t.isLeaf = false) :
    LeavesIn V R t ↔ ∀ part ∈ t.parts, LeavesIn V R part.2 := by
  refine ⟨fun leaves part mem => leaves.part mem, fun parts => .intro ?_ parts⟩
  cases t with
  | var | ref => cases compound
  | _ => trivial

/-- A variable is its only leaf. -/
theorem leavesIn_var {i : Int} (holds : V i) : LeavesIn V R (.var i) :=
  .intro holds fun _ none => absurd none List.not_mem_nil

namespace LeavesIn

variable {t u : Term}

/-- The leaves of a term are those of the parts that are put in place. -/
theorem withParts {ps : List Term} (here : t.leafIn V R) (same : ps.length = t.parts.length)
    (parts : ∀ p ∈ ps, LeavesIn V R p) : LeavesIn V R (t.withParts ps) := by
  refine .intro ?_ fun part mem => parts _ ?_
  · unfold Term.withParts
    split <;> trivial
  · rw [← Term.terms_withParts same]
    exact List.mem_map_of_mem mem

/-- Replacing variables keeps the condition if what takes their place meets it. -/
theorem bindVars {f : Nat → Int → Term} (leaves : LeavesIn V R t)
    (placed : ∀ k i, V i → LeavesIn V R (f k i)) {depth : Nat} :
    LeavesIn V R (t.bindVars f depth) := by
  induction t using Term.byParts generalizing depth with
  | step t ih =>
      by_cases isVar : ∃ i, t = .var i
      · obtain ⟨i, rfl⟩ := isVar
        exact placed depth i leaves.here
      · rw [not_exists] at isVar
        rw [Term.bindVars_eq_withParts f depth isVar]
        refine withParts leaves.here (by simp) ?_
        rw [List.forall_mem_map]
        exact fun part mem => ih part mem (leaves.part mem)

/-- A traversal that fixes the variables of which the condition holds. -/
theorem bindVars_eq {f : Nat → Int → Term} (leaves : LeavesIn V R t)
    (fixed : ∀ k i, V i → f k i = .var i) {depth : Nat} : t.bindVars f depth = t := by
  induction t using Term.byParts generalizing depth with
  | step t ih =>
      by_cases isVar : ∃ i, t = .var i
      · obtain ⟨i, rfl⟩ := isVar
        exact fixed depth i leaves.here
      · rw [not_exists] at isVar
        rw [Term.bindVars_eq_withParts f depth isVar]
        conv_rhs => rw [← Term.withParts_parts t]
        refine congrArg t.withParts (List.map_congr_left fun part mem => ?_)
        exact ih part mem (leaves.part mem)

section Rules

variable (sums : ∀ i j, V (ar.add i j))
include sums

/-- Shifting keeps the condition. -/
theorem shift (leaves : LeavesIn V R t) (delta cutoff : Int) :
    LeavesIn V R (t.shift ar delta cutoff) := by
  refine leaves.bindVars fun k i holds => ?_
  split
  · exact leavesIn_var holds
  · exact leavesIn_var (sums i delta)

/-- Substitution of a value that meets the condition keeps it. -/
theorem subst (leaves : LeavesIn V R t) (value : LeavesIn V R u) (target : Int) :
    LeavesIn V R (t.subst ar u target) := by
  refine leaves.bindVars fun k i holds => ?_
  dsimp only
  split
  · exact value.shift sums _ _
  · split
    · exact leavesIn_var (sums i _)
    · exact leavesIn_var holds

end Rules

/-- The leaves of an application are those of its parts. -/
theorem app {erased : Bool} :
    LeavesIn V R (.app erased t u) ↔ LeavesIn V R t ∧ LeavesIn V R u := by
  simp [leavesIn_iff (t := .app erased t u) rfl, Term.parts]

/-- The leaves of a duplication are those of its parts. -/
theorem dup {name : String} :
    LeavesIn V R (.dup name t u) ↔ LeavesIn V R t ∧ LeavesIn V R u := by
  simp [leavesIn_iff (t := .dup name t u) rfl, Term.parts]

/-- The leaves of a spine are those of the head and the arguments. -/
theorem apply {args : List (Bool × Term)} :
    LeavesIn V R (t.apply args) ↔ LeavesIn V R t ∧ ∀ arg ∈ args, LeavesIn V R arg.2 := by
  induction args generalizing t with
  | nil => simp [Term.apply]
  | cons arg args ih =>
      rw [List.forall_mem_cons, ← and_assoc, ← @app V R t arg.2 arg.1]
      exact ih

/-- The rules keep the condition. -/
theorem contract {c : Contractum} (rule : Rule ar env t c) (sums : ∀ i j, V (ar.add i j))
    (defs : ∀ name d, env name = some d → LeavesIn V R d) (leaves : LeavesIn V R t) :
    LeavesIn V R c.term := by
  have room : ∀ {u : Term} (cutoff : Int), LeavesIn V R u → LeavesIn V R (u.shift ar 1 cutoff) :=
    fun cutoff leaves => leaves.shift sums 1 cutoff
  cases rule with
  | unfold name d found => exact defs name d found
  | beta erased erased' name dom body arg =>
      obtain ⟨fn, arg⟩ := app.1 leaves
      exact subst sums (fn.part (.tail _ (.head _))) arg 0
  | floatApp =>
      obtain ⟨fn, arg⟩ := app.1 leaves
      obtain ⟨value, body⟩ := dup.1 fn
      exact dup.2 ⟨value, app.2 ⟨body, room 0 arg⟩⟩
  | unpair =>
      rw [leavesIn_iff rfl] at leaves
      simp only [Term.parts, List.forall_mem_cons] at leaves
      obtain ⟨pair, -, body, -⟩ := leaves
      rw [leavesIn_iff rfl] at pair
      simp only [Term.parts, List.forall_mem_cons] at pair
      obtain ⟨-, fst, snd, -⟩ := pair
      exact (body.subst sums (room 0 snd) 0).subst sums fst 0
  | floatSplit =>
      rw [leavesIn_iff rfl] at leaves
      simp only [Term.parts, List.forall_mem_cons] at leaves
      obtain ⟨scrutinee, motive, body, none⟩ := leaves
      obtain ⟨value, inner⟩ := dup.1 scrutinee
      refine dup.2 ⟨value, (leavesIn_iff rfl).2 ?_⟩
      simp only [Term.parts, List.forall_mem_cons]
      exact ⟨inner, room 1 motive, room 2 body, none⟩
  | unbox =>
      obtain ⟨box, body⟩ := dup.1 leaves
      exact body.subst sums (box.part (.head _)) 0
  | floatDup =>
      obtain ⟨outer, body⟩ := dup.1 leaves
      obtain ⟨value, inner⟩ := dup.1 outer
      exact dup.2 ⟨value, dup.2 ⟨inner, room 1 body⟩⟩
  | select type label ctrType args self motive branches branch found =>
      have value : LeavesIn V R ((Term.ctr label ctrType).apply args) := leaves.part (.tail _ (.head _))
      exact apply.2 ⟨leaves.branch (Entries.mem_of_find? found), (apply.1 value).2⟩
  | floatCase type name value inner self motive branches =>
      rw [leavesIn_iff rfl, Term.parts_caseOf] at leaves
      simp only [List.forall_mem_cons, List.forall_mem_map] at leaves
      obtain ⟨type, scrutinee, motive, all⟩ := leaves
      obtain ⟨value, inner⟩ := dup.1 scrutinee
      refine dup.2 ⟨value, (leavesIn_iff rfl).2 ?_⟩
      rw [Term.parts_caseOf]
      simp only [List.forall_mem_cons, List.forall_mem_map, Entries.terms_map]
      exact ⟨room 0 type, inner, room 1 motive, fun branch mem => room 0 (all branch mem)⟩

end LeavesIn

/-- A run keeps the condition. -/
theorem Run.leavesIn {jobs : List (Bool × Term)} {m m' : Meter} {us : List Term}
    (run : Run ar env jobs m us m') (sums : ∀ i j, V (ar.add i j))
    (defs : ∀ name d, env name = some d → LeavesIn V R d)
    (leaves : ∀ job ∈ jobs, LeavesIn V R job.2) : ∀ u ∈ us, LeavesIn V R u := by
  have rebuilt : ∀ {t : Term} {ps qs : List Term}, t.leafIn V R → ps.length = t.early.length →
      qs.length = t.late.length → (∀ p ∈ ps, LeavesIn V R p) → (∀ q ∈ qs, LeavesIn V R q) →
      LeavesIn V R (t.withParts (ps ++ qs)) := by
    intro t ps qs here early late first last
    exact LeavesIn.withParts here (Term.length_jobs early late) (List.forall_mem_append.2 ⟨first, last⟩)
  induction run with
  | nil => exact fun _ none => absurd none List.not_mem_nil
  | cons job jobs m u m₁ us m₂ _ _ ih ih' =>
      rw [List.forall_mem_cons] at leaves ⊢
      exact ⟨by simpa using ih (by simpa using leaves.1), ih' leaves.2⟩
  | need t m u m₁ _ ih => exact ih (by simpa using leaves)
  | stay t m ps m₁ qs m₂ early _ late ih ih' =>
      have here := leaves _ List.mem_cons_self
      obtain ⟨first, last⟩ := Term.forall_jobs (LeavesIn V R) fun _ mem => here.part mem
      rw [List.forall_mem_singleton]
      exact rebuilt here.here early.length_eq late.length_eq (ih first) (ih' last)
  | refused t m ps m₁ c m₂ qs m₃ early _ _ late ih ih' =>
      have here := leaves _ List.mem_cons_self
      obtain ⟨first, last⟩ := Term.forall_jobs (LeavesIn V R) fun _ mem => here.part mem
      rw [List.forall_mem_singleton]
      exact rebuilt here.here early.length_eq late.length_eq (ih first) (ih' last)
  | fired t m ps m₁ c m₂ u m₃ early some _ _ ih ih' =>
      have here := leaves _ List.mem_cons_self
      obtain ⟨first, last⟩ := Term.forall_jobs (LeavesIn V R) fun _ mem => here.part mem
      have redex := rebuilt here.here early.length_eq (List.length_map ..) (ih first)
        (List.forall_mem_map.2 last)
      have contractum := LeavesIn.contract (rule_of_contract? some) sums defs redex
      rw [← c.around_inner] at contractum
      rw [List.forall_mem_singleton]
      cases c with
      | plain inner =>
          exact List.forall_mem_singleton.1 (ih' (List.forall_mem_singleton.2 contractum))
      | under name value body =>
          obtain ⟨value, body⟩ := LeavesIn.dup.1 contractum
          exact LeavesIn.dup.2 ⟨value, by simpa using ih' (by simpa using body)⟩

end BoxCalculus
