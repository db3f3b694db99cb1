import BoxCalculus.Proofs.UniqueNormalForms

/-!
# The algebra of substitution

How shifting and substitution pass through each other: a shift that makes room for one binder is
undone by closing it (`subst_shift`), a shift goes through a substitution above or below the binder
that is closed (`shift_subst_above`, `shift_subst_below`), and so does another substitution
(`subst_subst`). With exact sums these are equations between assignments, checked at the binder that
is closed. With machine words they hold as long as no sum overflows (`substitution_algebra`), and so do
the laws of two shifts in a row (`shift_algebra`).
-/

namespace BoxCalculus

namespace Assign

/-- Closing a binder and then instantiating, variable by variable. -/
theorem close_inst (value : Term) (σ : Assign) :
    (fun i => (close value i).inst σ) = fun i => (σ.up i).inst (close (value.inst σ)) := by
  funext i
  have closed := Term.inst_close_inst (.var i) value σ
  rwa [Term.inst_var, Term.inst_var] at closed

/-- Below some binders, a variable beyond them stands for what it stood for outside. -/
theorem upBy_add (σ : Assign) (n i : Nat) : σ.upBy n (i + n) = (σ i).shift .exact n 0 := by
  induction n with
  | zero => exact (Term.shift_zero (σ i) 0).symm
  | succ n ih =>
      show ((σ.upBy n) (i + n)).shift .exact 1 0 = (σ i).shift .exact (n + 1 : Nat) 0
      rw [ih, Term.shift_shift (σ i) (Int.le_refl 0) (by omega)]
      rfl

/-- Making room and then instantiating beyond it, variable by variable. -/
theorem raise_inst (σ : Assign) (n : Nat) :
    (fun i => (raise n i).inst (σ.upBy n)) = fun i => (σ i).inst (raise n) := by
  funext i
  rw [raise, Term.inst_var, upBy_add]
  exact Term.shift_eq_inst (σ i) n 0

end Assign

namespace Term

/-- Making room for a binder and closing it with any value. -/
theorem subst_shift (t value : Term) (target : Nat) :
    (t.shift .exact 1 target).subst .exact value target = t := by
  have room : (fun i => (Assign.raise 1 i).inst (Assign.close value)) = fun i : Nat => var i :=
    funext fun i => inst_var (i + 1) _
  have still : (Assign.upBy target fun i : Nat => var i) = fun i : Nat => var i := by
    induction target with
    | zero => rfl
    | succ target ih => rw [Assign.upBy, ih, Assign.up_self]
  rw [subst_eq_inst, show (1 : Int) = (1 : Nat) from rfl, shift_eq_inst, inst_inst,
    Assign.upBy_inst, room, still, inst_self]

/-- Room that is made beyond the binder that is closed is made in the value too. -/
theorem shift_subst_above (t value : Term) (target delta more : Nat) :
    (t.subst .exact value target).shift .exact delta (more + target : Nat) =
      (t.shift .exact delta (more + target + 1 : Nat)).subst .exact
        (value.shift .exact delta more) target := by
  have cutoff : more + target + 1 = more + 1 + target := by omega
  rw [subst_eq_inst, subst_eq_inst, shift_eq_inst, shift_eq_inst, shift_eq_inst, inst_inst, inst_inst,
    cutoff, ← Assign.upBy_upBy, ← Assign.upBy_upBy, Assign.upBy_inst, Assign.upBy_inst,
    Assign.close_inst]
  rfl

/-- Room that is made inside of the binder that is closed only moves it. -/
theorem shift_subst_below (t value : Term) (cutoff delta more : Nat) :
    (t.subst .exact value (more + cutoff : Nat)).shift .exact delta cutoff =
      (t.shift .exact delta cutoff).subst .exact value (more + delta + cutoff : Nat) := by
  rw [subst_eq_inst, subst_eq_inst, shift_eq_inst, shift_eq_inst, inst_inst, inst_inst,
    ← Assign.upBy_upBy, ← Assign.upBy_upBy, ← Assign.upBy_upBy, Assign.upBy_inst, Assign.upBy_inst,
    Assign.raise_inst]

/-- Of two binders that are closed, the outer one may be closed first, in the value of the inner one
too. -/
theorem subst_subst (t inner outer : Term) (target more : Nat) :
    (t.subst .exact inner target).subst .exact outer (more + target : Nat) =
      (t.subst .exact outer (more + target + 1 : Nat)).subst .exact
        (inner.subst .exact outer more) target := by
  have next : more + target + 1 = more + 1 + target := by omega
  rw [subst_eq_inst, subst_eq_inst, subst_eq_inst, subst_eq_inst, subst_eq_inst, inst_inst, inst_inst,
    next, ← Assign.upBy_upBy, ← Assign.upBy_upBy, Assign.upBy_inst, Assign.upBy_inst,
    Assign.close_inst]
  rfl

/-- The subterm at a position. The position says to which part to go on, from the root inward. -/
def at? : Term → List Nat → Option Term
  | t, [] => some t
  | t, i :: position => t.parts[i]?.bind fun part => part.2.at? position

/-- Replacing variables fills no gap. -/
theorem at?_bindVars_hole (f : Nat → Int → Term) {t : Term} {position : List Nat}
    (gap : t.at? position = some hole) (depth : Nat) :
    (t.bindVars f depth).at? position = some hole := by
  induction position generalizing t depth with
  | nil =>
      obtain rfl : t = hole := Option.some.inj gap
      rfl
  | cons i position ih =>
      simp only [at?, Option.bind_eq_some_iff] at gap
      obtain ⟨part, here, gap⟩ := gap
      have compound : ∀ j, t ≠ var j := by
        rintro j rfl
        simp [parts] at here
      simp only [at?, parts_bindVars f depth compound, List.getElem?_map, here, Option.map_some,
        Option.bind_some]
      exact ih gap (depth + part.1)

end Term

instance [DecidableEq α] (run : Arith → α) : Decidable (OverflowFree run) :=
  inferInstanceAs (Decidable (run .word = run .exact))

/-- The two computations have the same result with machine words, unless a sum overflows in one of
them. -/
def AgreeUnlessOverflow (left right : Arith → α) : Prop :=
  OverflowFree (fun ar => (left ar, right ar)) → left .word = right .word

/-- It is enough that the results are the same with exact sums. -/
theorem AgreeUnlessOverflow.of_exact {left right : Arith → α} (same : left .exact = right .exact) :
    AgreeUnlessOverflow left right := by
  intro safe
  obtain ⟨left_safe, right_safe⟩ := Prod.mk.inj safe
  calc
    left .word = left .exact := left_safe
    _ = right .exact := same
    _ = right .word := right_safe.symm

/-- The laws of shifting and substitution, as equations between whole terms, and that neither of the
two fills a gap. -/
theorem substitution_algebra (t u v : Term) {j k c d : Int} (first : 0 ≤ j) (ordered : j ≤ k)
    (cutoff : 0 ≤ c) (room : 0 ≤ d) :
    AgreeUnlessOverflow (fun ar => (t.shift ar 1 k).subst ar v k) (fun _ => t) ∧
    (k ≤ c → AgreeUnlessOverflow (fun ar => (t.subst ar v k).shift ar d c)
      (fun ar => (t.shift ar d (ar.add c 1)).subst ar (v.shift ar d (ar.add c (-k))) k)) ∧
    (c ≤ k → AgreeUnlessOverflow (fun ar => (t.subst ar v k).shift ar d c)
      (fun ar => (t.shift ar d c).subst ar v (ar.add k d))) ∧
    AgreeUnlessOverflow (fun ar => (t.subst ar u j).subst ar v k)
      (fun ar => (t.subst ar v (ar.add k 1)).subst ar (u.subst ar v (ar.add k (-j))) j) ∧
    ∀ position, t.at? position = some .hole →
      (t.shift .word d c).at? position = some .hole ∧
      (t.subst .word v k).at? position = some .hole := by
  obtain ⟨j, rfl⟩ := Int.eq_ofNat_of_zero_le first
  obtain ⟨k, rfl⟩ := Int.eq_ofNat_of_zero_le (Int.le_trans first ordered)
  obtain ⟨c, rfl⟩ := Int.eq_ofNat_of_zero_le cutoff
  obtain ⟨d, rfl⟩ := Int.eq_ofNat_of_zero_le room
  refine ⟨.of_exact (Term.subst_shift t v k), ?_, ?_, .of_exact ?_, ?_⟩
  · intro above
    obtain ⟨more, rfl⟩ : ∃ more, c = more + k := ⟨c - k, by omega⟩
    have inside : ((more + k : Nat) : Int) + -(k : Int) = more := by omega
    refine .of_exact ?_
    simp only [Arith.exact_add, inside]
    exact Term.shift_subst_above t v k d more
  · intro below
    obtain ⟨more, rfl⟩ : ∃ more, k = more + c := ⟨k - c, by omega⟩
    have moved : ((more + c : Nat) : Int) + d = (more + d + c : Nat) := by omega
    refine .of_exact ?_
    simp only [Arith.exact_add, moved]
    exact Term.shift_subst_below t v c d more
  · obtain ⟨more, rfl⟩ : ∃ more, k = more + j := ⟨k - j, by omega⟩
    have inside : ((more + j : Nat) : Int) + -(j : Int) = more := by omega
    simp only [Arith.exact_add, inside]
    exact Term.subst_subst t u v j more
  · intro position gap
    exact ⟨Term.at?_bindVars_hole _ gap 0, Term.at?_bindVars_hole _ gap 0⟩

/-- The laws for an erased lambda without a domain, in whose body two free variables are closed with
values that have free variables themselves. -/
theorem substitution_algebra_lambda :
    let t : Term := .lam true "y" .hole (.app false (.var 1) (.var 2))
    let u : Term := .box (.var 1)
    let v : Term := .dup "z" (.var 0) (.var 1)
    (t.shift .word 1 1).subst .word v 1 = t ∧
      (t.subst .word v 1).shift .word 3 1 =
        (t.shift .word 3 2).subst .word (v.shift .word 3 0) 1 ∧
      (t.subst .word v 1).shift .word 3 1 = (t.shift .word 3 1).subst .word v 4 ∧
      (t.subst .word u 0).subst .word v 1 =
        (t.subst .word v 2).subst .word (u.subst .word v 1) 0 ∧
      (t.subst .word v 1).at? [0] = some .hole := by
  intro t u v
  obtain ⟨undone, above, below, twice, gaps⟩ :=
    @substitution_algebra t u v 0 1 1 3 (by decide) (by decide) (by decide) (by decide)
  exact ⟨undone (by decide +kernel), above (by decide) (by decide +kernel),
    below (by decide) (by decide +kernel), twice (by decide +kernel), (gaps [0] rfl).2⟩

/-- The laws of shifting, as equations between whole terms: making no room changes nothing, room that is
made within room that has just been made adds to it, and room at two places can be made in either
order, where the outer place has moved if the inner one comes first. -/
theorem shift_algebra (t : Term) (d₁ d₂ c c' : Int) :
    AgreeUnlessOverflow (fun ar => t.shift ar 0 c) (fun _ => t) ∧
    (c ≤ c' → c' ≤ c + d₁ → AgreeUnlessOverflow
      (fun ar => (t.shift ar d₁ c).shift ar d₂ c') (fun ar => t.shift ar (ar.add d₁ d₂) c)) ∧
    (0 ≤ d₁ → 0 ≤ d₂ → c ≤ c' → AgreeUnlessOverflow
      (fun ar => (t.shift ar d₁ c).shift ar d₂ (ar.add c' d₁))
      (fun ar => (t.shift ar d₂ c').shift ar d₁ c)) := by
  refine ⟨.of_exact (Term.shift_zero t c), ?_, ?_⟩
  · intro below within
    exact .of_exact (Term.shift_shift t below within)
  · intro room₁ room₂ below
    exact .of_exact (Term.shift_comm t below room₁ room₂)

/-- The laws for a case analysis whose motive and branches bind variables of their own, with the second
place inside the room that the first shift makes and with the second place beyond it. -/
theorem shift_algebra_case :
    let t : Term := .caseOf (.var 0) (.app true (.var 1) (.var 4)) "s"
      (.sigma false "p" (.var 0) (.var 3))
      (.cons "mk" (.lam true "y" .hole (.split false (.var 0) "q" (.var 1) "a" "b" (.var 4))) .nil)
    t.shift .word 0 1 = t ∧
      (t.shift .word 3 1).shift .word 2 2 = t.shift .word 5 1 ∧
      (t.shift .word 3 1).shift .word 2 5 = (t.shift .word 2 2).shift .word 3 1 := by
  intro t
  obtain ⟨none, more, either⟩ := shift_algebra t 3 2 1 2
  exact ⟨none (by decide +kernel), more (by decide) (by decide) (by decide +kernel),
    either (by decide) (by decide) (by decide) (by decide +kernel)⟩

end BoxCalculus
