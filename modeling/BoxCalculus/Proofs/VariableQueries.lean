import BoxCalculus.Proofs.Expansion

/-!
# Questions about variables, and the transforms

Whether a variable occurs in a term, and whether a term is closed, shows in what substitution and
shifting do to the term (`variable_queries`). Traversals give the same term exactly if they agree on
each of its variables (`Term.bindVars_eq_iff`), so each answer is compared with a transform variable
by variable.

A transform counts the binders it goes below from its cutoff or its target on, in machine words.
Where that count leaves the range of words, bound variables are taken for free ones, and even closed
terms change (`closed_term_changes`).
-/

namespace BoxCalculus

/-- Adding one to a word changes it, also where the sum wraps around. -/
theorem Arith.word_add_one_ne (i : Int) : word.add i 1 ≠ i := by
  rw [word_add, Int.bmod_def]
  split <;> omega

namespace Term

variable {ar : Arith} {t : Term} {f g : Nat → Int → Term} {depth : Nat}

/-- Two traversals of a term give the same exactly if they do the same to each of its variables. -/
theorem bindVars_eq_iff :
    t.bindVars f depth = t.bindVars g depth ↔ t.allVars (fun k i => f k i = g k i) depth = true := by
  induction t using byParts generalizing depth with
  | step t ih =>
      by_cases isVar : ∃ i, t = var i
      · obtain ⟨i, rfl⟩ := isVar
        exact decide_eq_true_iff.symm
      · rw [not_exists] at isVar
        rw [allVars_eq_all _ depth isVar, List.all_eq_true]
        constructor
        · intro same part mem
          have parts := congrArg Term.parts same
          rw [parts_bindVars f depth isVar, parts_bindVars g depth isVar] at parts
          exact (ih part mem).1 (congrArg Prod.snd (List.map_inj_left.1 parts part mem))
        · intro all
          rw [bindVars_eq_withParts f depth isVar, bindVars_eq_withParts g depth isVar]
          refine congrArg t.withParts (List.map_congr_left fun part mem => ?_)
          exact (ih part mem).2 (all part mem)

/-- A traversal changes nothing exactly if it fixes each variable. -/
theorem bindVars_eq_self_iff :
    t.bindVars f depth = t ↔ t.allVars (fun k i => f k i = var i) depth = true := by
  rw [← bindVars_eq_iff, bindVars_var]

/-- A question that gets the same answer at each variable below fewer than `2 ^ 63` binders gets the
same answer for a shallow term. -/
theorem allVars_congr_of_shallow {p q : Nat → Int → Bool} (shallow : t.shallow = true)
    (same : ∀ k i, k < 2 ^ 63 → p k i = q k i) : t.allVars p 0 = t.allVars q 0 := by
  have transfer : ∀ {p q : Nat → Int → Bool}, (∀ k i, k < 2 ^ 63 → p k i = q k i) →
      t.allVars p 0 = true → t.allVars q 0 = true := by
    intro p q same all
    have both := allVars_and all shallow
    refine allVars_mono (fun k i holds => ?_) both
    obtain ⟨answer, below⟩ := Bool.and_eq_true_iff.1 holds
    rwa [← same _ _ (of_decide_eq_true below)]
  rw [Bool.eq_iff_iff]
  exact ⟨transfer same, transfer fun k i below => (same k i below).symm⟩

/-- A variable does not occur exactly if it makes no difference what is substituted for it. -/
theorem occurs_eq_false_iff_subst {i : Int} :
    t.occurs ar i = false ↔ ∀ v w, t.subst ar v i = t.subst ar w i := by
  rw [occurs, Bool.not_eq_false']
  constructor
  · intro absent v w
    refine bindVars_eq_iff.2 (allVars_mono (fun k j differs => ?_) absent)
    rw [Nat.zero_add, bne_iff_ne] at differs
    simp [differs]
  · intro same
    -- A universe and a gap stay what they are when they are shifted to where the variable stands.
    refine allVars_mono (fun k j agree => ?_) (bindVars_eq_iff.1 (same univ hole))
    simp only [decide_eq_true_eq] at agree
    rw [bne_iff_ne]
    rintro rfl
    simp [shift, bindVars] at agree

/-- A shallow term is closed exactly if adding one to its free variables changes nothing. -/
theorem closed_iff_shift_eq (shallow : t.shallow = true) :
    t.closed = true ↔ t.shift .word 1 0 = t := by
  rw [shift, bindVars_eq_self_iff, closed]
  refine Eq.congr_left (allVars_congr_of_shallow shallow fun k i below => ?_)
  have cutoff : Arith.word.add 0 k = k := by
    rw [Arith.word_add_eq (by omega) (by omega), Int.zero_add]
  rw [cutoff]
  by_cases bound : i < k
  · simp [bound]
  · simp [bound, Arith.word_add_one_ne]

/-- Do the sums of `start` and the binders around a variable of the term stay below `2 ^ 63`? -/
def countsFrom (t : Term) (start : Int) : Bool :=
  t.allVars (fun depth _ => start + depth < 2 ^ 63) 0

/-- A transform that passes by the variables below its `start` fixes a closed term in which the
count of binders stays a word. -/
theorem bindVars_closed {start : Int} (closed : t.closed = true) (nonneg : 0 ≤ start)
    (counts : t.countsFrom start = true)
    (passes : ∀ (k : Nat) i, i < Arith.word.add start k → f k i = var i) : t.bindVars f 0 = t := by
  have both := allVars_and closed counts
  refine bindVars_of_allVars (fun k i holds => passes k i ?_) both
  simp only [Bool.and_eq_true, decide_eq_true_eq] at holds
  rw [Arith.word_add_eq (by omega) (by omega)]
  omega

end Term

/-- The questions about the variables of a term agree with the transforms. A variable does not occur
exactly if substitution for it gives the same whatever is substituted. A term is closed exactly if
shifting its free variables by one changes nothing. Then no shift and no substitution changes it, as
long as the binders counted from the cutoff or the target stay below `2 ^ 63`. -/
theorem variable_queries (t : Term) (there : t ≠ .hole) (shallow : t.shallow = true) :
    (∀ i : Int, 0 ≤ i → (t.query (fun t => t.occurs .word i) = some false ↔
      ∀ v w, t.subst .word v i = t.subst .word w i)) ∧
    (t.query Term.closed = some true ↔ t.shift .word 1 0 = t) ∧
    (t.query Term.closed = some true →
      (∀ d c : Int, 0 ≤ c → t.countsFrom c = true → t.shift .word d c = t) ∧
      ∀ (v : Term) (k : Int), 0 ≤ k → t.countsFrom k = true → t.subst .word v k = t) := by
  have answers : ∀ ask : Term → Bool, t.query ask = some (ask t) := by
    intro ask
    rw [Term.query, if_neg]
    cases t with
    | hole => exact absurd rfl there
    | _ => exact Bool.false_ne_true
  simp only [answers, Option.some.injEq]
  refine ⟨fun i _ => Term.occurs_eq_false_iff_subst, Term.closed_iff_shift_eq shallow,
    fun closed => ⟨fun d c nonneg counts => ?_, fun v k nonneg counts => ?_⟩⟩
  · exact Term.bindVars_closed closed nonneg counts fun _ _ below => if_pos below
  · refine Term.bindVars_closed closed nonneg counts fun j i below => ?_
    simp only
    rw [if_neg (by omega), if_neg (by omega)]

/-- A closed term with binders of all counts is changed by nothing, and a variable that does not
occur below a binder can be replaced by anything. -/
theorem variable_queries_split :
    (Term.lam false "p" .univ (.split false (.var 0) "q" (.var 1) "a" "b"
      (.app false (.var 2) (.var 0)))).shift .word (-7) 5 =
        .lam false "p" .univ (.split false (.var 0) "q" (.var 1) "a" "b"
          (.app false (.var 2) (.var 0))) ∧
    (Term.lam false "x" .univ (.var 2)).subst .word (.ref "n") 0 =
      (Term.lam false "x" .univ (.var 2)).subst .word (.box .univ) 0 := by
  constructor
  · exact ((variable_queries _ (by decide) (by decide)).2.2 (by decide)).1 (-7) 5 (by decide)
      (by decide)
  · exact ((variable_queries (.lam false "x" .univ (.var 2)) (by decide) (by decide)).1 0
      (by decide)).1 (by decide) _ _

/-- The identity is closed and passes the test of shifting by one. Counted from the greatest word on,
its bound variable seems free: shifts raise it and substitutions lower it. -/
theorem closed_term_changes :
    (Term.lam false "x" .univ (.var 0)).query Term.closed = some true ∧
    (Term.lam false "x" .univ (.var 0)).shift .word 1 0 = .lam false "x" .univ (.var 0) ∧
    (Term.lam false "x" .univ (.var 0)).shift .word 1 (2 ^ 63 - 1) = .lam false "x" .univ (.var 1) ∧
    (Term.lam false "x" .univ (.var 0)).subst .word .univ (2 ^ 63 - 1) =
      .lam false "x" .univ (.var (-1)) := by
  decide

end BoxCalculus
