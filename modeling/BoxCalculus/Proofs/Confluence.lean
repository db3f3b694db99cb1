import BoxCalculus.Proofs.Floating

/-!
# Confluence

With exact index arithmetic and definitions without free variables, whatever two ways a term is
rewritten can be continued to the same term (`confluent`), so it has at most one normal form.

`Par` lets any set of the computing redexes of a term compute at once, the inner ones first. Two such
steps can be completed by two more (`par_diamond`). A duplication that has moved outward does not get
in the way of such a step (`par_commutes`): at most the same duplication has to be moved after it.
Together with the confluence of floating this is all that is needed.
-/

namespace BoxCalculus

open Relation (ReflGen ReflTransGen)

/-- `Par env t u` says that some of the computing redexes of `t` compute, the inner ones first, and
give `u`. A redex that only comes about by this does not count. -/
inductive Par (env : Env) : Term → Term → Prop where
  | node (t ps) :
      t.parts.length = ps.length → (∀ pair ∈ t.parts.zip ps, Par env pair.1.2 pair.2) →
      Par env t (t.withParts ps)
  | redex (t s ps u) :
      Computes env t s → t.parts.length = ps.length →
      (∀ pair ∈ t.parts.zip ps, Par env pair.1.2 pair.2) → Computes env (t.withParts ps) u →
      Par env t u

namespace Par

variable {env : Env} {t u : Term}

/-- The parts of a term compute at once. -/
theorem of_parts (parts : Parted (Par env) t u) : Par env t u := by
  obtain ⟨ps, each, rfl⟩ := parts
  obtain ⟨same, each⟩ := List.forall₂_iff_zip.1 each
  exact .node t ps same fun pair member => each member

/-- The parts of a redex compute at once, and then the redex does. -/
theorem of_redex {s t' : Term} (redex : Computes env t s) (parts : Parted (Par env) t t')
    (redex' : Computes env t' u) : Par env t u := by
  obtain ⟨ps, each, rfl⟩ := parts
  obtain ⟨same, each⟩ := List.forall₂_iff_zip.1 each
  exact .redex t s ps u redex same (fun pair member => each member) redex'

/-- Induction on the redexes that compute. -/
@[elab_as_elim]
theorem byParts {P : Term → Term → Prop}
    (node : ∀ t u, Parted (fun p q => Par env p q ∧ P p q) t u → P t u)
    (redex : ∀ t s t' u, Computes env t s → Parted (fun p q => Par env p q ∧ P p q) t t' →
      Computes env t' u → P t u)
    (h : Par env t u) : P t u := by
  induction h with
  | node t ps same each ih =>
      refine node t _ ⟨ps, List.forall₂_iff_zip.2 ⟨same, fun {part p} member => ?_⟩, rfl⟩
      exact ⟨each (part, p) member, ih (part, p) member⟩
  | redex t s ps u computes same each computes' ih =>
      refine redex t s _ u computes
        ⟨ps, List.forall₂_iff_zip.2 ⟨same, fun {part p} member => ?_⟩, rfl⟩ computes'
      exact ⟨each (part, p) member, ih (part, p) member⟩

/-- First the parts of the term compute, and then the term itself does or not. -/
theorem parts_then (h : Par env t u) :
    ∃ t', Parted (Par env) t t' ∧ (u = t' ∨ ∃ s, Computes env t s ∧ Computes env t' u) := by
  refine byParts (fun t u parts => ?_) (fun t s t' u computes parts computes' => ?_) h
  · exact ⟨u, parts.imp fun _ _ _ => And.left, .inl rfl⟩
  · exact ⟨t', parts.imp fun _ _ _ => And.left, .inr ⟨s, computes, computes'⟩⟩

/-- No redex has to compute. -/
theorem refl (env : Env) (t : Term) : Par env t t := by
  induction t using Term.byParts with
  | step t ih => exact of_parts (Parted.of_refl ih)

/-- Redexes compute in the term and in what is put in, which is given below all binders. -/
theorem inst_upBy (closed : env.Closed) (h : Par env t u) : ∀ σ τ : Assign,
    (∀ n i, Par env (σ.upBy n i) (τ.upBy n i)) → Par env (t.inst σ) (u.inst τ) := by
  refine byParts (fun t u parts => ?_) (fun t s t' u computes parts computes' => ?_) h
  all_goals intro σ τ assigned
  · by_cases isVar : ∃ i, t = .var i
    · obtain ⟨i, rfl⟩ := isVar
      obtain rfl := (Parted.leaf_iff rfl).1 parts
      match i with
      | .ofNat i =>
          rw [Int.ofNat_eq_natCast, Term.inst_var, Term.inst_var]
          exact assigned 0 i
      | .negSucc i =>
          rw [Term.inst_negative (Int.negSucc_lt_zero i), Term.inst_negative (Int.negSucc_lt_zero i)]
          exact refl env _
    · rw [not_exists] at isVar
      refine of_parts (parts.inst isVar fun part _ q related => related.2 _ _ fun n => ?_)
      rw [Assign.upBy_upBy, Assign.upBy_upBy]
      exact assigned _
  · have compound : ∀ i, t ≠ .var i := by
      rintro i rfl
      cases computes
    refine of_redex (computes.inst closed σ) (parts.inst compound fun part _ q related => ?_)
      (computes'.inst closed τ)
    refine related.2 _ _ fun n => ?_
    rw [Assign.upBy_upBy, Assign.upBy_upBy]
    exact assigned _

/-- Redexes compute in the term and in what is put in. -/
theorem inst (closed : env.Closed) {σ τ : Assign} (h : Par env t u)
    (assigned : ∀ i, Par env (σ i) (τ i)) : Par env (t.inst σ) (u.inst τ) := by
  refine h.inst_upBy closed σ τ (Assign.related_upBy (refl env _) (fun p q related => ?_) assigned)
  exact related.inst_upBy closed _ _ fun _ _ => refl env _

end Par

/-- Computing at once is compatible with forms and instantiation. -/
theorem compatible_par {env : Env} (closed : env.Closed) : Compatible (Par env) where
  node := Par.of_parts
  canonical := by
    intro t u canonical h
    obtain ⟨t', parts, rfl | ⟨s, computes, -⟩⟩ := h.parts_then
    · exact parts
    · rw [computes.not_canonical] at canonical
      cases canonical
  inst := fun h assigned => h.inst closed assigned

variable {env : Env} (closed : env.Closed)
include closed

/-- Two sets of redexes of a term compute, each followed by what is left of the other. -/
theorem par_diamond {t u w : Term} (first : Par env t u) (second : Par env t w) :
    ∃ x, Par env u x ∧ Par env w x := by
  have compatible := compatible_par closed
  induction t using Term.byParts generalizing u w with
  | step t ih =>
      obtain ⟨t₁, parts₁, then₁⟩ := first.parts_then
      obtain ⟨t₂, parts₂, then₂⟩ := second.parts_then
      obtain ⟨t', left, right⟩ := parts₁.join parts₂ fun part member p q => ih part member
      rcases then₁ with rfl | ⟨s, computes, computes₁⟩
      · rcases then₂ with rfl | ⟨s, computes, computes₂⟩
        · exact ⟨t', .of_parts left, .of_parts right⟩
        · obtain ⟨_, redex, -⟩ := compatible.transport computes parts₁
          obtain ⟨x, computes', related⟩ := compatible.transport computes₂ right
          exact ⟨x, .of_redex redex left computes', related⟩
      · obtain ⟨x, computes', related⟩ := compatible.transport computes₁ left
        rcases then₂ with rfl | ⟨_, -, computes₂⟩
        · obtain ⟨_, redex, -⟩ := compatible.transport computes parts₂
          exact ⟨x, related, .of_redex redex right computes'⟩
        · obtain ⟨x', computes'', related'⟩ := compatible.transport computes₂ right
          obtain rfl := computes'.deterministic computes''
          exact ⟨x, related, related'⟩

/-- The duplication that a form looks at has moved outward, while redexes in the form compute. -/
theorem par_commutes_root {E : Frame} {name : String} {value body w : Term}
    (par : Par env (E.fill (.dup name value body)) w) :
    ∃ x, Par env (.dup name value (E.lift.fill body)) x ∧ Floating w x := by
  have compatible := compatible_par closed
  obtain ⟨_, parts, rfl | ⟨_, computes, -⟩⟩ := par.parts_then
  · obtain ⟨E', v, rfl, inner, frames⟩ := compatible.frame parts
    obtain ⟨_, parts', rfl | ⟨_, computes, computes'⟩⟩ := inner.parts_then
    · obtain ⟨value', body', values, bodies, rfl⟩ := Parted.dup_iff.1 parts'
      have bodies' := Par.of_parts (frames bodies)
      exact ⟨.dup name value' (E'.lift.fill body'),
        .of_parts (Parted.dup_iff.2 ⟨_, _, values, bodies', rfl⟩), .single (.root _ _ (.out ..))⟩
    · -- The duplication meets its box: the form was around the body before, and is so again.
      obtain ⟨value', body', values, bodies, rfl⟩ := Parted.dup_iff.1 parts'
      have bodies' := Par.of_parts (frames bodies)
      cases computes
      cases computes' with
      | unbox _ content =>
          have same : (E'.lift.fill body').inst (Assign.close content) =
              E'.fill (body'.inst (Assign.close content)) := by
            rw [Frame.inst_fill, Frame.inst_lift_close]
          refine ⟨_, .of_redex (.unbox ..) (Parted.dup_iff.2 ⟨_, _, values, bodies', rfl⟩) ?_, .refl⟩
          rw [← same]
          exact .unbox ..
  · exact absurd computes Computes.not_float

/-- A duplication has moved outward, while redexes of the term compute. -/
theorem par_commutes_step {t u w : Term} (float : Inside Floats t u) (par : Par env t w) :
    ∃ x, Par env u x ∧ Floating w x := by
  induction t using Term.byParts generalizing u w with
  | step t ih =>
      rcases float.root_or_parts with ⟨E, name, value, body⟩ | floats
      · exact par_commutes_root closed par
      · obtain ⟨t', parts, rest⟩ := par.parts_then
        obtain ⟨x, left, right⟩ :
            ∃ x, Parted (Par env) u x ∧ Parted Floating t' x := by
          refine floats.join parts fun part member p q float par => ?_
          cases float with
          | refl => exact ⟨q, par, .refl⟩
          | single float => exact ih part member float par
        rcases rest with rfl | ⟨s, computes, computes'⟩
        · exact ⟨x, .of_parts left, parts_steps right⟩
        · have floats' := floats.imp fun _ _ _ step => step.to_reflTransGen
          obtain ⟨_, redex, -⟩ := compatible_floating.transport computes floats'
          obtain ⟨x', redex', related⟩ := compatible_floating.transport computes' right
          exact ⟨x', .of_redex redex left redex', related⟩

/-- Duplications have moved outward, while redexes of the term compute. -/
theorem par_commutes {t u w : Term} (floats : Floating t u) (par : Par env t w) :
    ∃ x, Par env u x ∧ Floating w x := by
  induction floats with
  | refl => exact ⟨w, par, .refl⟩
  | tail _ step ih =>
      obtain ⟨x, par, floats⟩ := ih
      obtain ⟨y, par', floats'⟩ := par_commutes_step closed step par
      exact ⟨y, par', floats.trans floats'⟩

omit closed in
/-- A single redex computes. -/
theorem par_of_computes {t u : Term} (step : Inside (Computes env) t u) : Par env t u := by
  induction t using Term.byParts generalizing u with
  | step t ih =>
      rcases step.root_or_parts with root | parts
      · exact .of_redex root (Parted.of_refl fun part _ => .refl env part.2) root
      · refine .of_parts (parts.imp fun part member p step => ?_)
        cases step with
        | refl => exact .refl env _
        | single step => exact ih part member step

omit closed in
/-- What computes at once computes step by step. -/
theorem steps_of_par {t u : Term} (par : Par env t u) : Steps .exact env t u := by
  refine Par.byParts (fun t u parts => ?_) (fun t s t' u computes parts computes' => ?_) par
  · exact parts_steps (parts.imp fun _ _ _ => And.right)
  · have steps := parts_steps (parts.imp fun _ _ _ => And.right)
    exact steps.tail (.root _ _ (.of_computes computes'))

omit closed in
/-- Moving duplications outward is rewriting. -/
theorem steps_of_floating {t u : Term} (floats : Floating t u) : Steps .exact env t u :=
  ReflTransGen.mono (fun _ _ step => step.mono fun _ _ => .of_floats) _ _ floats

omit closed in
/-- A step computes or moves a duplication outward. -/
theorem step_exact {t u : Term} (step : Step .exact env t u) :
    ∃ w, Par env t w ∧ Floating w u := by
  have kinds : Inside (Computes env) t u ∨ Inside Floats t u := by
    induction step with
    | root t u h => exact (contracts_exact_iff.1 h).imp (.root t u) (.root t u)
    | part t i n p p' here _ ih => exact ih.imp (.part t i n p p' here) (.part t i n p p' here)
  rcases kinds with computes | floats
  · exact ⟨u, par_of_computes computes, .refl⟩
  · exact ⟨t, .refl env t, .single floats⟩

/-- Redexes compute and then duplications move outward, in two ways. -/
theorem par_floating_diamond {t u u' w w' : Term} (par : Par env t u) (floats : Floating u u')
    (par' : Par env t w) (floats' : Floating w w') :
    ∃ x, (∃ y, Par env u' y ∧ Floating y x) ∧ (∃ y, Par env w' y ∧ Floating y x) := by
  obtain ⟨v, left, right⟩ := par_diamond closed par par'
  obtain ⟨y, left', first⟩ := par_commutes closed floats left
  obtain ⟨y', right', second⟩ := par_commutes closed floats' right
  obtain ⟨x, first', second'⟩ := floats_confluent first second
  exact ⟨x, ⟨y, left', first'⟩, ⟨y', right', second'⟩⟩

/-- Two ways of rewriting a term can be continued to the same term. -/
theorem confluent {t u w : Term} (first : Steps .exact env t u) (second : Steps .exact env t w) :
    ∃ x, Steps .exact env u x ∧ Steps .exact env w x := by
  have coarse : ∀ {t u}, Steps .exact env t u →
      ReflTransGen (fun t u => ∃ w, Par env t w ∧ Floating w u) t u :=
    fun steps => ReflTransGen.mono (fun _ _ => step_exact) _ _ steps
  have fine : ∀ {t u}, ReflTransGen (fun t u => ∃ w, Par env t w ∧ Floating w u) t u →
      Steps .exact env t u := by
    intro t u steps
    induction steps with
    | refl => exact .refl
    | tail _ step ih =>
        obtain ⟨w, par, floats⟩ := step
        exact ih.trans ((steps_of_par par).trans (steps_of_floating floats))
  obtain ⟨x, left, right⟩ := Relation.church_rosser
    (fun _ _ _ ⟨_, par, floats⟩ ⟨_, par', floats'⟩ => by
      obtain ⟨x, left, right⟩ := par_floating_diamond closed par floats par' floats'
      exact ⟨x, .single left, .single right⟩) (coarse first) (coarse second)
  exact ⟨x, fine left, fine right⟩

omit closed in
/-- A normal term rewrites to itself only. -/
theorem Normal.steps_eq {ar : Arith} {t u : Term} (normal : Normal ar env t)
    (steps : Steps ar env t u) : u = t :=
  (Relation.reflTransGen_iff_eq normal).1 steps

/-- A term has at most one normal form, and every rewriting can be continued to it. -/
theorem steps_normal {t u w : Term} (first : Steps .exact env t u) (second : Steps .exact env t w)
    (normal : Normal .exact env w) : Steps .exact env u w := by
  obtain ⟨x, left, right⟩ := confluent closed first second
  rwa [normal.steps_eq right] at left

end BoxCalculus
