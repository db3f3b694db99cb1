import BoxCalculus.Proofs.Redexes

/-!
# Moving duplications outward

`Term.float` moves every duplication of a term outward as far as it goes. A term floats to its
floated form (`floats_float`), and floating does not change that form (`float_eq_of_floats`), so any
two ways of moving duplications outward can be continued to the same term (`floats_confluent`).
-/

namespace BoxCalculus

open Relation (ReflTransGen)

/-- Any number of duplications move outward, anywhere in the term. -/
abbrev Floating : Term → Term → Prop :=
  ReflTransGen (Inside Floats)

/-- Floating is compatible with forms and instantiation. -/
theorem compatible_floating : Compatible Floating :=
  compatible_steps (fun _ _ => Floats.not_canonical) fun _ _ σ h => h.inst σ

/-- Put a term in the place of a form and move the duplications around it outward. -/
def Frame.push : Frame → Term → Term
  | E, .dup name value body => .dup name value (E.lift.push body)
  | E, t => E.fill t

/-- Move the duplications around the term that a form looks at outward. -/
def Term.settle : Term → Term
  | .app erased fn arg => (Frame.app erased arg).push fn
  | .split erased scrutinee name motive fstName sndName body =>
      (Frame.split erased name motive fstName sndName body).push scrutinee
  | .caseOf type value name motive branches => (Frame.caseOf type name motive branches).push value
  | .dup name value body => (Frame.dup name body).push value
  | t => t

mutual

/-- Move every duplication outward as far as it goes. -/
def Term.float : Term → Term
  | .hole => .hole
  | .var index => .var index
  | .univ => .univ
  | .ref name => .ref name
  | .pi erased name dom cod => .pi erased name dom.float cod.float
  | .lam erased name dom body => .lam erased name dom.float body.float
  | .app erased fn arg => (Term.app erased fn.float arg.float).settle
  | .sigma erased name fst snd => .sigma erased name fst.float snd.float
  | .pair erased type fst snd => .pair erased type.float fst.float snd.float
  | .split erased scrutinee name motive fstName sndName body =>
      (Term.split erased scrutinee.float name motive.float fstName sndName body.float).settle
  | .data name type ctrs => .data name type.float ctrs.float
  | .ctr name type => .ctr name type.float
  | .caseOf type value name motive branches =>
      (Term.caseOf type.float value.float name motive.float branches.float).settle
  | .dup name value body => (Term.dup name value.float body.float).settle
  | .box value => .box value.float
  | .boxType type => .boxType type.float

/-- Move the duplications of each entry outward. -/
def Entries.float : Entries → Entries
  | .nil => .nil
  | .cons label term rest => .cons label term.float rest.float

end

/-- The duplications of entries are moved in each of their terms. -/
theorem Entries.float_eq_map : ∀ entries : Entries, entries.float = entries.map Term.float
  | .nil => rfl
  | .cons label term rest => by rw [Entries.float, Entries.map, Entries.float_eq_map rest]

/-- The duplications of the parts move first. -/
theorem Term.float_eq_settle (t : Term) :
    t.float = (t.withParts (t.parts.map fun part => part.2.float)).settle := by
  cases t with
  | data name type ctrs =>
      have count : (ctrs.terms.map Term.float).length = ctrs.length := by simp
      simp only [Term.float, Entries.float_eq_map, Entries.map_eq_withTerms, Term.parts_data,
        List.map_append, List.map_map, Function.comp_def, List.map_cons, List.map_nil,
        Term.withParts_data, Entries.withTerms_append _ count, List.getLastD_concat, Term.settle]
  | caseOf type value name motive branches =>
      simp only [Term.float, Entries.float_eq_map, Entries.map_eq_withTerms, Term.parts_caseOf,
        List.map_cons, List.map_map, Function.comp_def, Term.withParts_caseOf]
  | _ => rfl

/-- The floated form depends on those of the parts only. -/
theorem Term.float_withParts {t : Term} {ps : List Term} (same : ps.length = t.parts.length) :
    (t.withParts ps).float = (t.withParts (ps.map Term.float)).settle := by
  rw [Term.float_eq_settle, Term.map_parts_withParts same,
    Term.withParts_withParts _ same (by simp [same])]

/-- The assignment replaces variables by variables. -/
def Assign.Renames (σ : Assign) : Prop :=
  ∀ i, ∃ j : Nat, σ i = .var j

/-- Making room replaces variables by variables. -/
theorem Assign.renames_raise (n : Nat) : (Assign.raise n).Renames :=
  fun i => ⟨i + n, rfl⟩

/-- A renaming stays one below a binder. -/
theorem Assign.Renames.up {σ : Assign} (renames : σ.Renames) : σ.up.Renames := by
  intro i
  cases i with
  | zero => exact ⟨0, rfl⟩
  | succ i =>
      obtain ⟨j, image⟩ := renames i
      refine ⟨j + 1, ?_⟩
      rw [Assign.up_succ, image, Term.inst_var]
      rfl

/-- A renaming stays one below any number of binders. -/
theorem Assign.Renames.upBy {σ : Assign} (renames : σ.Renames) : ∀ n, (σ.upBy n).Renames
  | 0 => renames
  | n + 1 => (renames.upBy n).up

/-- Renaming gives a variable for a variable. -/
theorem Assign.Renames.var {σ : Assign} (renames : σ.Renames) (i : Int) :
    ∃ j, (Term.var i).inst σ = .var j := by
  match i with
  | .ofNat i =>
      obtain ⟨j, image⟩ := renames i
      exact ⟨j, by rw [Int.ofNat_eq_natCast, Term.inst_var, image]⟩
  | .negSucc i => exact ⟨_, Term.inst_negative (Int.negSucc_lt_zero i) σ⟩

/-- Pushing a term into a form commutes with renaming. -/
theorem Frame.push_inst (E : Frame) (t : Term) {σ : Assign} (renames : σ.Renames) :
    (E.push t).inst σ = (E.inst σ).push (t.inst σ) := by
  induction t generalizing E σ with
  | dup name value body _ ih =>
      rw [Frame.push, Term.inst_dup, Term.inst_dup, Frame.push, ih E.lift renames.up,
        Frame.inst_lift]
  | var i =>
      obtain ⟨j, image⟩ := renames.var i
      rw [Frame.push, Frame.inst_fill, image, Frame.push]
      all_goals simp
  | _ => simp [Frame.push, Frame.inst_fill]

/-- Moving a form past a duplication before or after that duplication has moved itself. -/
theorem Frame.push_dup_push (E : Frame) (name : String) (body t : Term) :
    E.push ((Frame.dup name body).push t) = (Frame.dup name (E.lift.push body)).push t := by
  induction t generalizing E body with
  | dup other value inner _ ih =>
      have inner_eq := ih E.lift (body.inst (Assign.raise 1).up)
      have raised : (E.lift.push body).inst (Assign.raise 1).up =
          E.lift.lift.push (body.inst (Assign.raise 1).up) := by
        rw [Frame.push_inst _ _ (Assign.renames_raise 1).up, Frame.inst_lift]
        rfl
      simp only [Frame.push, Frame.lift, Frame.inst] at inner_eq raised ⊢
      rw [inner_eq, raised]
  | _ => simp [Frame.push, Frame.fill]

/-- Settling a term commutes with renaming. -/
theorem Term.settle_inst (t : Term) {σ : Assign} (renames : σ.Renames) :
    t.settle.inst σ = (t.inst σ).settle := by
  cases t with
  | var i =>
      obtain ⟨j, image⟩ := renames.var i
      rw [Term.settle, image, Term.settle]
      all_goals simp
  | app | split | caseOf | dup =>
      simp only [Term.settle, Frame.push_inst _ _ renames, Frame.inst, Term.inst_app,
        Term.inst_split, Term.inst_caseOf, Term.inst_dup]
  | _ => simp [Term.settle]

/-- Floating a term commutes with renaming. -/
theorem Term.float_inst (t : Term) {σ : Assign} (renames : σ.Renames) :
    t.float.inst σ = (t.inst σ).float := by
  induction t using Term.byParts generalizing σ with
  | step t ih =>
      by_cases isVar : ∃ i, t = .var i
      · obtain ⟨i, rfl⟩ := isVar
        obtain ⟨j, image⟩ := renames.var i
        rw [Term.float, image, Term.float]
      · rw [not_exists] at isVar
        rw [Term.float_eq_settle, Term.settle_inst _ renames, Term.inst_withParts σ isVar (by simp),
          Term.inst_eq_withParts σ isVar, Term.float_withParts (by simp), List.zip_map', List.map_map,
          List.map_map]
        refine congrArg (fun ps => (t.withParts ps).settle) (List.map_congr_left fun part member => ?_)
        exact ih part member (renames.upBy part.1)

/-- The form with the duplications in its terms moved outward. -/
def Frame.float : Frame → Frame
  | app erased arg => app erased arg.float
  | split erased name motive fstName sndName body =>
      split erased name motive.float fstName sndName body.float
  | caseOf type name motive branches => caseOf type.float name motive.float branches.float
  | dup name body => dup name body.float

/-- Floating a filled form pushes the floated term into the floated form. -/
theorem Frame.float_fill (E : Frame) (t : Term) : (E.fill t).float = E.float.push t.float := by
  cases E <;> rfl

/-- Floating a form commutes with lifting it over a binder. -/
theorem Frame.float_lift (E : Frame) : E.lift.float = E.float.lift := by
  have renames := Assign.renames_raise 1
  have renames' := renames.up
  have renames'' := renames'.up
  cases E <;>
    simp [Frame.lift, Frame.inst, Frame.float, Entries.float_eq_map, Function.comp_def,
      Term.float_inst _ renames, Term.float_inst _ renames', Term.float_inst _ renames'']

/-- Moving a duplication outward does not change the floated form. -/
theorem float_eq_of_floats {t u : Term} (step : Inside Floats t u) : t.float = u.float := by
  induction step with
  | root t u h =>
      obtain ⟨E, name, value, body⟩ := h
      calc (E.fill (.dup name value body)).float
          = E.float.push ((Frame.dup name body.float).push value.float) := E.float_fill _
        _ = (Frame.dup name (E.float.lift.push body.float)).push value.float :=
            Frame.push_dup_push ..
        _ = (Frame.dup name (E.lift.fill body).float).push value.float := by
            rw [Frame.float_fill, Frame.float_lift]
        _ = (Term.dup name value (E.lift.fill body)).float := rfl
  | part t i n p p' here _ ih =>
      rw [Term.float_withParts (by simp), Term.float_eq_settle]
      congr 2
      refine List.ext_getElem? fun j => ?_
      by_cases same : i = j
      · subst same
        obtain ⟨within, found⟩ := List.getElem?_eq_some_iff.1 here
        simp [found, within, ih]
      · simp [List.getElem?_set_ne same, Function.comp_def]

/-- A filled form floats to the term pushed into it. -/
theorem floats_push (E : Frame) (t : Term) : Floating (E.fill t) (E.push t) := by
  induction t generalizing E with
  | dup name value body _ ih =>
      have first : Inside Floats (E.fill (.dup name value body))
          (.dup name value (E.lift.fill body)) := .root _ _ (.out ..)
      refine ReflTransGen.head first ?_
      exact parts_steps (Parted.dup_iff.2 ⟨_, _, .refl, ih E.lift, rfl⟩)
  | _ => exact ReflTransGen.refl

/-- A term floats to what settling makes of it. -/
theorem floats_settle (t : Term) : Floating t t.settle := by
  cases t with
  | app erased fn arg => exact floats_push (.app erased arg) fn
  | split erased scrutinee name motive fstName sndName body =>
      exact floats_push (.split erased name motive fstName sndName body) scrutinee
  | caseOf type value name motive branches =>
      exact floats_push (.caseOf type name motive branches) value
  | dup name value body => exact floats_push (.dup name body) value
  | _ => exact ReflTransGen.refl

/-- Duplications can be moved outward as far as they go. -/
theorem floats_float (t : Term) : Floating t t.float := by
  induction t using Term.byParts with
  | step t ih =>
      have parts : Floating t (t.withParts (t.parts.map fun part => part.2.float)) := by
        refine parts_steps ⟨_, ?_, rfl⟩
        rw [List.forall₂_map_right_iff, List.forall₂_same]
        exact ih
      rw [Term.float_eq_settle]
      exact parts.trans (floats_settle _)

/-- Two ways of moving duplications outward can be continued to the same term. -/
theorem floats_confluent {t u w : Term} (first : Floating t u) (second : Floating t w) :
    ∃ x, Floating u x ∧ Floating w x := by
  have float_eq : ∀ {u}, Floating t u → t.float = u.float := by
    intro u steps
    induction steps with
    | refl => rfl
    | tail _ step ih => rw [ih, float_eq_of_floats step]
  refine ⟨t.float, ?_, ?_⟩
  · rw [float_eq first]
    exact floats_float u
  · rw [float_eq second]
    exact floats_float w

end BoxCalculus
