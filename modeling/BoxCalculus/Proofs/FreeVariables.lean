import BoxCalculus.Proofs.Conditions
import BoxCalculus.Proofs.Weakening

/-!
# Computation invents no variable

`t.freeIn signed S n` says where the free variables of a term may point that stands below `n`
binders: to one of these, or past them to a place in `S`. With definitions that have no free
variables this is a condition that the rules keep (`freeIn_condition`), because each of them moves
terms under binders and out of them again with the shifts that belong to it.

A variable that occurs free in what a term is normalized to therefore occurs free in the term, and a
closed term stays closed (`occurs_of_occurs_normalize`). This holds also of a term that is only
partly reduced because the fuel has run out.
-/

namespace BoxCalculus

namespace Term

/-- Below `n` binders, does the variable `i` point to one of them, or to a place in `S` beyond them?
Nothing binds a negative variable; `signed` says whether there may be any. -/
def pointsInto (signed : Bool) (S : Nat → Bool) (n : Nat) (i : Int) : Bool :=
  if i < 0 then signed else i < n || S (i.toNat - n)

/-- Below `n` binders, do the variables of the term point to these binders or to places in `S`
beyond them? -/
def freeIn (t : Term) (signed : Bool) (S : Nat → Bool) (n : Nat) : Bool :=
  t.allVars (pointsInto signed S) n

/-- What a traversal puts in place of a variable has to answer for it. -/
theorem allVars_bindVars_of {p q : Nat → Int → Bool} {f : Nat → Int → Term} {d e : Nat} {t : Term}
    (placed : ∀ k i, p (d + k) i = true → (f k i).allVars q (e + k) = true)
    (all : t.allVars p d = true) : (t.bindVars f 0).allVars q e = true := by
  have here : (t.bindVars f 0).allVars (fun k i => q (e + k) i) 0 = true := by
    rw [allVars_bindVars]
    refine allVars_mono (fun k i holds => ?_) all
    rw [Nat.zero_add]
    exact allVars_mono (fun l j answer => by rwa [← Nat.add_assoc]) (placed k i holds)
  exact allVars_mono (fun k i answer => by rwa [Nat.zero_add] at answer) here

variable {signed : Bool} {S : Nat → Bool} {t value : Term} {n : Nat}

/-- Where a variable may point, in the terms of its index. -/
theorem pointsInto_iff {i : Int} : pointsInto signed S n i = true ↔
    i < 0 ∧ signed = true ∨ 0 ≤ i ∧ (i < n ∨ S (i.toNat - n) = true) := by
  by_cases negative : i < 0
  · have other : ¬ 0 ≤ i := by omega
    simp [pointsInto, negative, other]
  · have other : 0 ≤ i := by omega
    simp [pointsInto, negative, other]

/-- A bound variable points to a binder. -/
theorem freeIn_bound {i : Nat} (below : i < n) : (var i).freeIn signed S n = true := by
  show pointsInto signed S n i = true
  exact pointsInto_iff.2 (.inr ⟨by omega, .inl (by omega)⟩)

/-- The variables of a compound term are those of its parts. -/
theorem freeIn_iff_parts (compound : t.isLeaf = false) : t.freeIn signed S n = true ↔
    ∀ part ∈ t.parts, part.2.freeIn signed S (n + part.1) = true := by
  have isVar : ∀ i, t ≠ var i := by
    rintro i rfl
    cases compound
  rw [freeIn, allVars_eq_all _ _ isVar, List.all_eq_true]
  rfl

/-- Shifting makes room for binders that nothing points to. -/
theorem freeIn_shift (delta cutoff : Nat) (free : t.freeIn signed S (n + cutoff) = true) :
    (t.shift .exact delta cutoff).freeIn signed S (n + delta + cutoff) = true := by
  rw [shift_exact]
  refine allVars_bindVars_of (fun k i here => ?_) free
  rcases pointsInto_iff.1 here with ⟨negative, allowed⟩ | ⟨nonneg, place⟩
  · -- A negative variable is below every cutoff.
    rw [if_pos (by omega)]
    exact pointsInto_iff.2 (.inl ⟨negative, allowed⟩)
  · split
    · exact pointsInto_iff.2 (.inr ⟨nonneg, .inl (by omega)⟩)
    · refine pointsInto_iff.2 (.inr ⟨by omega, place.imp (fun below => by omega) fun beyond => ?_⟩)
      rwa [show (i + delta).toNat - (n + delta + cutoff + k) = i.toNat - (n + cutoff + k) by omega]

/-- Substitution takes away a binder, and the variables of the value point past it. -/
theorem freeIn_subst (free : t.freeIn signed S (n + 1) = true)
    (value_free : value.freeIn signed S n = true) :
    (t.subst .exact value 0).freeIn signed S n = true := by
  rw [subst_exact]
  refine allVars_bindVars_of (fun k i here => ?_) free
  rcases pointsInto_iff.1 here with ⟨negative, allowed⟩ | ⟨nonneg, place⟩
  · rw [if_neg (by omega), if_neg (by omega)]
    exact pointsInto_iff.2 (.inl ⟨negative, allowed⟩)
  · split
    · -- The value is moved below the binders that the variable stands under.
      rw [Int.zero_add]
      exact freeIn_shift k 0 value_free
    · split
      · have place' : i + -1 < ↑(n + k) ∨ S (i.toNat - (n + 1 + k)) = true :=
          place.imp_left fun below => by omega
        refine pointsInto_iff.2 (.inr ⟨by omega, place'.imp_right fun beyond => ?_⟩)
        rwa [show (i + -1).toNat - (n + k) = i.toNat - (n + 1 + k) by omega]
      · exact pointsInto_iff.2 (.inr ⟨nonneg, .inl (by omega)⟩)

/-- A term without free variables can stand anywhere. -/
theorem freeIn_of_freeIn_zero (free : t.freeIn signed (fun _ => false) 0 = true) :
    t.freeIn signed S n = true := by
  refine allVars_mono (fun k i here => ?_) free
  rcases pointsInto_iff.1 here with allowed | ⟨nonneg, below | beyond⟩
  · exact pointsInto_iff.2 (.inl allowed)
  · exact pointsInto_iff.2 (.inr ⟨nonneg, .inl (by omega)⟩)
  · cases beyond

end Term

/-- What the free variables of a term point to is a condition that the rules keep, if the
definitions have no free variables. -/
def freeIn_condition {env : Env} (signed : Bool) (S : Nat → Bool)
    (closed : ∀ name d, env name = some d → d.freeIn signed (fun _ => false) 0 = true) :
    Condition .exact env env where
  holds n t := t.freeIn signed S n = true
  parts _ _ compound := Term.freeIn_iff_parts compound
  bound _ _ below := Term.freeIn_bound below
  shift _ delta cutoff _ free := Term.freeIn_shift delta cutoff free
  move _ i _ free := Term.freeIn_shift (i + 1) 0 free
  subst _ _ _ free value_free := Term.freeIn_subst free value_free
  unfold _ name d _ found := Term.freeIn_of_freeIn_zero (closed name d found)
  agree _ _ _ := rfl

namespace Term

variable {t : Term}

/-- A variable that does not occur is one that no free variable points to. -/
theorem occurs_eq_false_iff (i : Nat) :
    t.occurs .exact i = false ↔ t.freeIn true (fun j => j ≠ i) 0 = true := by
  rw [occurs, Bool.not_eq_false']
  constructor
  · refine allVars_mono fun k j differ => pointsInto_iff.2 ?_
    simp only [Arith.exact_add, bne_iff_ne, ne_eq] at differ
    by_cases negative : j < 0
    · exact .inl ⟨negative, rfl⟩
    · refine .inr ⟨by omega, ?_⟩
      rw [decide_eq_true_eq]
      omega
  · refine allVars_mono fun k j free => ?_
    rw [Arith.exact_add, bne_iff_ne]
    rcases pointsInto_iff.1 free with ⟨negative, -⟩ | ⟨nonneg, below | beyond⟩
    · omega
    · omega
    · rw [decide_eq_true_eq] at beyond
      omega

/-- A closed term has no variable that points anywhere. -/
theorem closed_eq_freeIn : t.closed = t.freeIn true (fun _ => false) 0 := by
  refine congrArg (fun p => t.allVars p 0) ?_
  funext k i
  rw [Bool.eq_iff_iff, pointsInto_iff, decide_eq_true_eq]
  simp only [Bool.false_eq_true, or_false, and_true]
  omega

end Term

/-- The term that a normalization ends with is the one that the reduction ends with. -/
theorem Kernel.fst_normalize {k : Kernel} {canceled : Bool} {t u : Term} {m : Meter}
    (reduced : reduce k.arith k.env t (Meter.start k.fuel canceled) = (u, m)) :
    (k.normalize canceled t).1 = u := by
  obtain ⟨_, -, out⟩ | ⟨-, -, out⟩ | ⟨-, _, -, ⟨-, out⟩ | ⟨-, out⟩⟩ := k.normalize_cases reduced
  all_goals rw [out]

/-- Normalizing keeps what the free variables of a term point to. -/
theorem freeIn_normalize {env : Env} (closed : env.Closed) (fuel : Int) (canceled : Bool)
    {S : Nat → Bool} {t : Term} (free : t.freeIn true S 0 = true) :
    ((⟨.exact, env, fuel⟩ : Kernel).normalize canceled t).1.freeIn true S 0 = true := by
  have defs : ∀ name d, env name = some d → d.freeIn true (fun _ => false) 0 = true := by
    intro name d found
    rw [← Term.closed_eq_freeIn]
    exact closed name d found
  generalize reduced : reduce .exact env t (Meter.start fuel canceled) = out
  obtain ⟨u, m⟩ := out
  rw [Kernel.fst_normalize reduced]
  exact (freeIn_condition true S defs).reduce reduced free

/-- With definitions that have no free variables, and unless a sum overflows, a variable that occurs
free in what a term is normalized to occurs free in the term, and a closed term stays closed. The
reduction may have come to an end or have been stopped. -/
theorem occurs_of_occurs_normalize {env : Env} (closed : env.Closed) (fuel : Int) (canceled : Bool)
    (t : Term)
    (safe : OverflowFree fun ar =>
      ({ arith := ar, env := env, fuel := fuel } : Kernel).normalize canceled t) :
    let result := (({ env := env, fuel := fuel } : Kernel).normalize canceled t).1
    (∀ i : Int, 0 ≤ i → OverflowFree (fun ar => (result.occurs ar i, t.occurs ar i)) →
      result.occurs .word i = true → t.occurs .word i = true) ∧
    (t.closed = true → result.closed = true) := by
  intro result
  have exactly : result = ((⟨.exact, env, fuel⟩ : Kernel).normalize canceled t).1 :=
    congrArg Prod.fst safe
  constructor
  · intro i nonneg within occurs
    simp only [OverflowFree, Prod.mk.injEq] at within
    rw [within.1] at occurs
    rw [within.2]
    obtain ⟨i, rfl⟩ := Int.eq_ofNat_of_zero_le nonneg
    by_contra absent
    rw [Bool.not_eq_true, Term.occurs_eq_false_iff] at absent
    have absent' := freeIn_normalize closed fuel canceled absent
    rw [← exactly, ← Term.occurs_eq_false_iff, occurs] at absent'
    cases absent'
  · intro closed_t
    rw [Term.closed_eq_freeIn] at closed_t ⊢
    rw [exactly]
    exact freeIn_normalize closed fuel canceled closed_t

/-- In `(! d = y in id) x` the argument moves below the binder `d`, where `x` has another index, and
it is still the same variable afterwards. Below two binders for `x` and `y` the term is closed and
stays so. -/
theorem occurs_of_occurs_normalize_float :
    let t : Term := .app false (.dup "d" (.var 1) (.ref "id")) (.var 0)
    let abstracted : Term := .lam false "y" .univ (.lam false "x" .univ t)
    (identityKernel.normalize false t).1 = .dup "d" (.var 1) (.var 1) ∧ t.occurs .word 0 = true ∧
      (identityKernel.normalize false abstracted).1.closed = true := by
  intro t abstracted
  refine ⟨rfl, ?_, ?_⟩
  · exact (occurs_of_occurs_normalize identityKernel_closed 3 false t rfl).1 0 (by omega) rfl rfl
  · exact (occurs_of_occurs_normalize identityKernel_closed 3 false abstracted rfl).2 rfl

end BoxCalculus
