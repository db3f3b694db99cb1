import BoxCalculus.Proofs.Parts

/-!
# Instantiation

`t.inst σ` replaces every free variable `i` of `t` by `σ i`, all at once. Shifting and substitution
with exact index arithmetic are both of this form (`shift_eq_inst`, `subst_eq_inst`), and two
instantiations in a row are one (`inst_inst`), so a law about shifts and substitutions is an equation
between assignments, checked at each variable.

Negative variables are bound by nothing and are left alone.
-/

namespace BoxCalculus

/-- A term for each free variable. -/
abbrev Assign := Nat → Term

namespace Assign

/-- What an assignment makes of the variable `i` below `depth` binders. -/
def place (σ : Assign) (depth : Nat) (i : Int) : Term :=
  if i < depth then .var i else (σ (i - depth).toNat).shift .exact depth 0

/-- The assignment below one more binder. -/
def up (σ : Assign) : Assign
  | 0 => .var 0
  | i + 1 => (σ i).shift .exact 1 0

/-- The assignment below some more binders. -/
def upBy : Nat → Assign → Assign
  | 0, σ => σ
  | n + 1, σ => (σ.upBy n).up

/-- Close the innermost binder with a value. -/
def close (value : Term) : Assign
  | 0 => value
  | i + 1 => .var i

/-- Make room for `n` binders. -/
def raise (n : Nat) : Assign := fun i => .var (i + n : Nat)

end Assign

/-- Replace every free variable of a term. -/
def Term.inst (t : Term) (σ : Assign) : Term :=
  t.bindVars σ.place 0

namespace Term

/-- Shifting with exact sums, variable by variable. -/
theorem shift_exact (t : Term) (delta cutoff : Int) :
    t.shift .exact delta cutoff =
      t.bindVars (fun depth i => if i < cutoff + depth then var i else var (i + delta)) 0 := rfl

/-- Substitution with exact sums, variable by variable. -/
theorem subst_exact (t value : Term) (target : Int) :
    t.subst .exact value target =
      t.bindVars (fun depth i => if i = target + depth then value.shift .exact (target + depth) 0
        else if target + depth < i then var (i + -1) else var i) 0 := rfl

/-- Traversals that agree on each variable agree. -/
theorem bindVars_ext {f g : Nat → Int → Term} {depth : Nat} (agree : ∀ k i, f k i = g k i)
    (t : Term) : t.bindVars f depth = t.bindVars g depth := by
  rw [funext₂ agree]

/-- A shift in the middle of the room that another shift has made only makes more room. -/
theorem shift_shift (t : Term) {first second cutoff middle : Int} (below : cutoff ≤ middle)
    (above : middle ≤ cutoff + first) :
    (t.shift .exact first cutoff).shift .exact second middle =
      t.shift .exact (first + second) cutoff := by
  rw [shift_exact, shift_exact, shift_exact, bindVars_bindVars]
  refine bindVars_ext (fun k i => ?_) t
  by_cases low : i < cutoff + k
  · have low' : i < middle + k := by omega
    simp only [low, low', if_true, bindVars]
  · have high : ¬ i + first < middle + k := by omega
    simp only [low, high, if_false, bindVars, Int.add_assoc]

/-- Shifts at two places can be done in either order. -/
theorem shift_comm (t : Term) {first second cutoff middle : Int} (below : cutoff ≤ middle)
    (room : 0 ≤ first) (room' : 0 ≤ second) :
    (t.shift .exact first cutoff).shift .exact second (middle + first) =
      (t.shift .exact second middle).shift .exact first cutoff := by
  rw [shift_exact, shift_exact, shift_exact, shift_exact, bindVars_bindVars, bindVars_bindVars]
  refine bindVars_ext (fun k i => ?_) t
  by_cases low : i < cutoff + k
  · -- Neither of the shifts reaches the variable.
    have low₁ : i < middle + first + k := by omega
    have low₂ : i < middle + k := by omega
    simp only [low, low₁, low₂, if_true, bindVars]
  · by_cases between : i < middle + k
    · -- Only the one with the lower cutoff does.
      have between₁ : i + first < middle + first + k := by omega
      simp only [low, between, between₁, if_true, if_false, bindVars]
    · have high₁ : ¬ i + first < middle + first + k := by omega
      have high₂ : ¬ i + second < cutoff + k := by omega
      simp only [low, between, high₁, high₂, if_false, bindVars]
      rw [Int.add_right_comm]

/-- Shifting by nothing changes nothing. -/
theorem shift_zero (t : Term) (cutoff : Int) : t.shift .exact 0 cutoff = t := by
  rw [shift_exact]
  conv_rhs => rw [← bindVars_var t 0]
  refine bindVars_ext (fun k i => ?_) t
  split <;> simp

/-- A shift, seen from below some binders, has its cutoff raised by their number. -/
theorem bindVars_shift (t : Term) (delta : Int) (depth : Nat) :
    t.bindVars (fun d i => if i < (0 : Int) + d then var i else var (i + delta)) depth =
      t.shift .exact delta depth := by
  rw [shift_exact]
  refine bindVars_congr (fun k i => ?_) t
  simp

/-- Making room and then replacing the variables above it is replacing them first. -/
theorem bindVars_place_shift (t : Term) (σ : Assign) (k : Nat) :
    (t.shift .exact k 0).bindVars σ.place k = (t.inst σ).shift .exact k 0 := by
  have deep : (t.shift .exact k 0).bindVars σ.place k =
      (t.shift .exact k 0).bindVars (fun d => σ.place (k + d)) 0 :=
    bindVars_congr (by simp) _
  rw [deep, inst, shift_exact, shift_exact, bindVars_bindVars, bindVars_bindVars]
  refine bindVars_ext (fun d i => ?_) t
  by_cases low : i < (0 : Int) + d
  · have low₁ : i < (k + d : Nat) := by omega
    have low₂ : i < (d : Int) := by omega
    simp only [low, low₁, low₂, if_true, bindVars, Assign.place]
  · have high₁ : ¬ i + k < (k + d : Nat) := by omega
    have high₂ : ¬ i < (d : Int) := by omega
    have same : (i + k - (k + d : Nat)).toNat = (i - d).toNat := by omega
    simp only [low, high₁, high₂, if_false, bindVars, Assign.place, same]
    rw [bindVars_shift, shift_shift _ (by omega) (by omega), Int.natCast_add, Int.add_comm]

/-- Two instantiations in a row are one. -/
theorem inst_inst (t : Term) (τ σ : Assign) : (t.inst τ).inst σ = t.inst fun i => (τ i).inst σ := by
  rw [inst, inst, inst, bindVars_bindVars]
  refine bindVars_ext (fun k i => ?_) t
  unfold Assign.place
  split
  · rename_i low
    simp [bindVars, low]
  · exact bindVars_place_shift _ σ k

/-- A variable is replaced by its term. -/
@[simp] theorem inst_var (i : Nat) (σ : Assign) : (var i).inst σ = σ i := by
  have free : ¬ (i : Int) < (0 : Nat) := by omega
  simp only [inst, bindVars, Assign.place, free, if_false]
  exact shift_zero _ _

/-- A variable that no binder can bind stays. -/
theorem inst_negative {i : Int} (negative : i < 0) (σ : Assign) : (var i).inst σ = var i := by
  simp [inst, bindVars, Assign.place, negative]

/-- Replacing each variable by itself. -/
theorem inst_self (t : Term) : t.inst (fun i => var i) = t := by
  rw [inst]
  conv_rhs => rw [← bindVars_var t 0]
  refine bindVars_ext (fun k i => ?_) t
  unfold Assign.place
  split
  · rfl
  · rename_i high
    have free : ¬ ((i - k).toNat : Int) < (0 : Int) + (0 : Nat) := by omega
    have back : ((i - k).toNat : Int) + k = i := by omega
    rw [shift_exact, bindVars, if_neg free, back]

/-- A term without free variables is not changed by replacing them. -/
theorem inst_closed {t : Term} (closed : t.closed = true) (σ : Assign) : t.inst σ = t := by
  refine bindVars_of_allVars (fun k i low => ?_) closed
  rw [Assign.place, if_pos (of_decide_eq_true low)]

/-- Shifting a variable that is there. -/
theorem shift_var (i : Nat) (delta : Int) : (var i).shift .exact delta 0 = var (i + delta) := by
  have free : ¬ (i : Int) < (0 : Int) + (0 : Nat) := by omega
  rw [shift_exact, bindVars, if_neg free]

/-- An assignment below a binder does what the assignment does below one binder more. -/
theorem place_up (σ : Assign) (depth : Nat) (i : Int) :
    σ.up.place depth i = σ.place (depth + 1) i := by
  unfold Assign.place
  by_cases low : i < depth
  · have low' : i < (depth + 1 : Nat) := by omega
    rw [if_pos low, if_pos low']
  · rw [if_neg low]
    by_cases here : i = depth
    · subst here
      have low' : (depth : Int) < (depth + 1 : Nat) := by omega
      have zero : ((depth : Int) - depth).toNat = 0 := by omega
      rw [if_pos low', zero, Assign.up]
      simpa using shift_var 0 depth
    · have high : ¬ i < (depth + 1 : Nat) := by omega
      have next : (i - depth).toNat = (i - (depth + 1 : Nat)).toNat + 1 := by omega
      rw [if_neg high, next, Assign.up, shift_shift _ (by omega) (by omega), Int.natCast_add,
        Int.add_comm]
      rfl

/-- Going below binders before or after makes no difference. -/
theorem place_upBy (σ : Assign) (n depth : Nat) (i : Int) :
    (σ.upBy n).place depth i = σ.place (depth + n) i := by
  induction n generalizing depth with
  | zero => rfl
  | succ n ih => rw [Assign.upBy, place_up, ih, Nat.add_right_comm, Nat.add_assoc]

/-- The parts of a term below `n` binders are replaced with the assignment below `n` binders. -/
theorem bindVars_place (t : Term) (σ : Assign) (n : Nat) :
    t.bindVars σ.place n = t.inst (σ.upBy n) := by
  rw [inst]
  refine bindVars_congr (fun k i => ?_) t
  rw [place_upBy, Nat.zero_add, Nat.add_comm]

/-- Shifting makes room for new binders above those that are kept. -/
theorem shift_eq_inst (t : Term) (delta cutoff : Nat) :
    t.shift .exact delta cutoff = t.inst ((Assign.raise delta).upBy cutoff) := by
  rw [shift_exact, inst]
  refine bindVars_ext (fun k i => ?_) t
  rw [place_upBy, Assign.place]
  by_cases low : i < (cutoff : Int) + k
  · have low' : i < (k + cutoff : Nat) := by omega
    rw [if_pos low, if_pos low']
  · have high : ¬ i < (k + cutoff : Nat) := by omega
    rw [if_neg low, if_neg high, Assign.raise, shift_var]
    congr 1
    omega

/-- Substitution closes a binder above those that are kept. -/
theorem subst_eq_inst (t value : Term) (target : Nat) :
    t.subst .exact value target = t.inst ((Assign.close value).upBy target) := by
  rw [subst_exact, inst]
  refine bindVars_ext (fun k i => ?_) t
  rw [place_upBy, Assign.place]
  by_cases here : i = (target : Int) + k
  · have high : ¬ i < (k + target : Nat) := by omega
    have zero : (i - (k + target : Nat)).toNat = 0 := by omega
    rw [if_pos here, if_neg high, zero, Assign.close, Int.natCast_add, Int.add_comm]
  · rw [if_neg here]
    by_cases above : (target : Int) + k < i
    · have high : ¬ i < (k + target : Nat) := by omega
      have next : (i - (k + target : Nat)).toNat = (i - 1 - (k + target : Nat)).toNat + 1 := by omega
      rw [if_pos above, if_neg high, next, Assign.close, shift_var]
      congr 1
      omega
    · have low : i < (k + target : Nat) := by omega
      rw [if_neg above, if_pos low]

/-- Shifting by one makes room for a binder. -/
theorem shift_one (t : Term) : t.shift .exact 1 0 = t.inst (Assign.raise 1) :=
  shift_eq_inst t 1 0

/-- Shifting by one above one binder makes room below it. -/
theorem shift_one_up (t : Term) : t.shift .exact 1 1 = t.inst (Assign.raise 1).up :=
  shift_eq_inst t 1 1

/-- Shifting by one above two binders makes room below them. -/
theorem shift_one_up_up (t : Term) : t.shift .exact 1 2 = t.inst (Assign.raise 1).up.up :=
  shift_eq_inst t 1 2

/-- Substitution at the innermost variable closes its binder. -/
theorem subst_zero (t value : Term) : t.subst .exact value 0 = t.inst (Assign.close value) :=
  subst_eq_inst t value 0

section Forms

variable (σ : Assign) (erased : Bool) (name fstName sndName : String) (a b c : Term)
  (entries : Entries)

/-- A gap stays a gap. -/
@[simp] theorem inst_hole : hole.inst σ = hole := rfl

/-- The universe has no variables. -/
@[simp] theorem inst_univ : univ.inst σ = univ := rfl

/-- A reference has no variables. -/
@[simp] theorem inst_ref : (ref name).inst σ = ref name := rfl

/-- Instantiation goes below the binder of a function type. -/
@[simp] theorem inst_pi : (pi erased name a b).inst σ = pi erased name (a.inst σ) (b.inst σ.up) :=
  congrArg (pi erased name _) (bindVars_place b σ 1)

/-- Instantiation goes below the binder of a lambda. -/
@[simp] theorem inst_lam :
    (lam erased name a b).inst σ = lam erased name (a.inst σ) (b.inst σ.up) :=
  congrArg (lam erased name _) (bindVars_place b σ 1)

/-- Instantiation goes into both parts of an application. -/
@[simp] theorem inst_app : (app erased a b).inst σ = app erased (a.inst σ) (b.inst σ) := rfl

/-- Instantiation goes below the binder of a pair type. -/
@[simp] theorem inst_sigma :
    (sigma erased name a b).inst σ = sigma erased name (a.inst σ) (b.inst σ.up) :=
  congrArg (sigma erased name _) (bindVars_place b σ 1)

/-- Instantiation goes into the type and the components of a pair. -/
@[simp] theorem inst_pair :
    (pair erased a b c).inst σ = pair erased (a.inst σ) (b.inst σ) (c.inst σ) := rfl

/-- Instantiation goes below the binders of a split. -/
@[simp] theorem inst_split : (split erased a name b fstName sndName c).inst σ =
    split erased (a.inst σ) name (b.inst σ.up) fstName sndName (c.inst σ.up.up) :=
  congr (congrArg (fun b => split erased _ name b fstName sndName) (bindVars_place b σ 1))
    (bindVars_place c σ 2)

/-- Instantiation goes below the binder of a declaration. -/
@[simp] theorem inst_data : (data name a entries).inst σ =
    data name (a.inst σ) (entries.map fun term => term.inst σ.up) := by
  rw [inst, bindVars, Entries.bindVars_eq_map]
  exact congrArg (data name _)
    (Entries.map_congr fun entry _ => bindVars_place entry.2 σ 1)

/-- Instantiation goes into the declaration of a constructor. -/
@[simp] theorem inst_ctr : (ctr name a).inst σ = ctr name (a.inst σ) := rfl

/-- Instantiation goes below the binder of a motive, and into the branches. -/
@[simp] theorem inst_caseOf : (caseOf a b name c entries).inst σ =
    caseOf (a.inst σ) (b.inst σ) name (c.inst σ.up) (entries.map fun term => term.inst σ) := by
  rw [inst, bindVars, Entries.bindVars_eq_map]
  exact congrArg (fun c => caseOf _ _ name c _) (bindVars_place c σ 1)

/-- Instantiation goes below the binder of a duplication. -/
@[simp] theorem inst_dup : (dup name a b).inst σ = dup name (a.inst σ) (b.inst σ.up) :=
  congrArg (dup name _) (bindVars_place b σ 1)

/-- Instantiation goes into the content of a box. -/
@[simp] theorem inst_box : (box a).inst σ = box (a.inst σ) := rfl

/-- Instantiation goes into the type of the content. -/
@[simp] theorem inst_boxType : (boxType a).inst σ = boxType (a.inst σ) := rfl

end Forms

/-- An instantiation acts on the parts of a term, below their binders. -/
theorem inst_eq_withParts (σ : Assign) {t : Term} (compound : ∀ i, t ≠ var i) :
    t.inst σ = t.withParts (t.parts.map fun part => part.2.inst (σ.upBy part.1)) := by
  rw [inst, bindVars_eq_withParts _ _ compound]
  refine congrArg t.withParts (List.map_congr_left fun part _ => ?_)
  rw [Nat.zero_add, bindVars_place]

end Term

namespace Assign

variable (σ τ : Assign)

/-- Below a binder its variable is kept. -/
@[simp] theorem up_zero : σ.up 0 = .var 0 := rfl

/-- Below a binder the terms of the others are raised. -/
theorem up_succ (i : Nat) : σ.up (i + 1) = (σ i).inst (raise 1) :=
  Term.shift_one (σ i)

/-- Going below some binders and then others is going below all of them. -/
theorem upBy_upBy (m n : Nat) : (σ.upBy m).upBy n = σ.upBy (m + n) := by
  induction n with
  | zero => rfl
  | succ n ih => rw [upBy, ih]; rfl

/-- The innermost variable is replaced by the value. -/
@[simp] theorem close_zero (value : Term) : close value 0 = value := rfl

/-- The other variables come closer by one binder. -/
@[simp] theorem close_succ (value : Term) (i : Nat) : close value (i + 1) = .var i := rfl

/-- Doing nothing below a binder is doing nothing. -/
theorem up_self : up (fun i => .var i) = fun i => .var i := by
  funext i
  cases i with
  | zero => rfl
  | succ i => rw [up_succ, Term.inst_var]; rfl

end Assign

namespace Term

/-- What is moved below a binder does not see what happens to the binder's variable. -/
theorem inst_raise_up (t : Term) (σ : Assign) :
    (t.inst (Assign.raise 1)).inst σ.up = (t.inst σ).inst (Assign.raise 1) := by
  rw [inst_inst, inst_inst]
  congr 1
  funext i
  rw [Assign.raise, inst_var, Assign.up_succ]

/-- Making room for a binder and closing it. -/
@[simp] theorem inst_raise_close (t value : Term) :
    (t.inst (Assign.raise 1)).inst (Assign.close value) = t := by
  have closed : (fun i => (Assign.raise 1 i).inst (Assign.close value)) = fun i : Nat => var i :=
    funext fun i => inst_var (i + 1) _
  rw [inst_inst, closed, inst_self]

end Term

namespace Assign

/-- Two instantiations below a binder. -/
theorem up_up (σ τ : Assign) : (fun i => (σ.up i).inst τ.up) = up fun i => (σ i).inst τ := by
  funext i
  cases i with
  | zero => rw [up_zero, up_zero]; exact Term.inst_var 0 τ.up
  | succ i => rw [up_succ, up_succ, Term.inst_raise_up]

/-- Below binders, one assignment after another is the composite of the two. -/
theorem upBy_inst (σ τ : Assign) (n : Nat) :
    (fun i => (σ.upBy n i).inst (τ.upBy n)) = upBy n fun i => (σ i).inst τ := by
  induction n with
  | zero => rfl
  | succ n ih => rw [upBy, upBy, up_up, ih, upBy]

end Assign

namespace Term

/-- Making room below some binders can be done before or after an instantiation. -/
theorem inst_raise_upBy (t : Term) (σ : Assign) (n : Nat) :
    (t.inst ((Assign.raise 1).upBy n)).inst (σ.up.upBy n) =
      (t.inst (σ.upBy n)).inst ((Assign.raise 1).upBy n) := by
  have room : (fun i => (Assign.raise 1 i).inst σ.up) = fun i => (σ i).inst (Assign.raise 1) :=
    funext fun i => (inst_var (i + 1) σ.up).trans (Assign.up_succ σ i)
  rw [inst_inst, inst_inst, Assign.upBy_inst, Assign.upBy_inst, room]

/-- Closing a binder and then instantiating is instantiating both the body and the value first. -/
theorem inst_close_inst (t value : Term) (σ : Assign) :
    (t.inst (Assign.close value)).inst σ = (t.inst σ.up).inst (Assign.close (value.inst σ)) := by
  rw [inst_inst, inst_inst]
  congr 1
  funext i
  cases i with
  | zero => exact (inst_var 0 (Assign.close (value.inst σ))).symm
  | succ i => rw [Assign.close_succ, inst_var, Assign.up_succ, inst_raise_close]

/-- The parts of an instantiated term are the instantiated parts. -/
theorem parts_inst (σ : Assign) {t : Term} (compound : ∀ i, t ≠ var i) :
    (t.inst σ).parts = t.parts.map fun part => (part.1, part.2.inst (σ.upBy part.1)) := by
  rw [inst_eq_withParts σ compound, parts_withParts (by simp), List.zip_map']

/-- A term with other parts is instantiated by instantiating these. -/
theorem inst_withParts (σ : Assign) {t : Term} {ps : List Term} (compound : ∀ i, t ≠ var i)
    (same : ps.length = t.parts.length) :
    (t.withParts ps).inst σ =
      t.withParts (((t.parts.map Prod.fst).zip ps).map fun part => part.2.inst (σ.upBy part.1)) := by
  rw [inst_eq_withParts σ (withParts_ne_var compound ps), parts_withParts same,
    withParts_withParts _ same]
  simp [same]

end Term

/-- Related assignments stay related below more binders. -/
theorem Assign.related_upBy {R : Term → Term → Prop} {σ τ : Assign} (zero : R (.var 0) (.var 0))
    (raise : ∀ t u, R t u → R (t.inst (Assign.raise 1)) (u.inst (Assign.raise 1)))
    (related : ∀ i, R (σ i) (τ i)) (n i : Nat) : R (σ.upBy n i) (τ.upBy n i) := by
  induction n generalizing i with
  | zero => exact related i
  | succ n ih =>
      cases i with
      | zero => exact zero
      | succ i =>
          rw [Assign.upBy, Assign.upBy, Assign.up_succ, Assign.up_succ]
          exact raise _ _ (ih i)

/-- Instantiating terms with related parts. -/
theorem Parted.inst {R S : Term → Term → Prop} {σ τ : Assign} {t u : Term}
    (compound : ∀ i, t ≠ .var i) (parted : Parted R t u)
    (each : ∀ part ∈ t.parts, ∀ q, R part.2 q →
      S (part.2.inst (σ.upBy part.1)) (q.inst (τ.upBy part.1))) :
    Parted S (t.inst σ) (u.inst τ) := by
  refine parted.bindVars compound fun part mem part' _ binders related => ?_
  rw [Nat.zero_add, Nat.zero_add, Term.bindVars_place, Term.bindVars_place, ← binders]
  exact each part mem part'.2 related

end BoxCalculus
