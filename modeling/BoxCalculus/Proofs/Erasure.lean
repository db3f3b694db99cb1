import BoxCalculus.Proofs.FreeVariables
import BoxCalculus.Proofs.SubstitutionAlgebra
import BoxCalculus.Proofs.VariableQueries
import BoxCalculus.Term.Erasure

/-!
# Erasure is a projection

Erasing a term leaves nothing in it that could be erased (`Term.relevant_erase`), so erasing the
result once more changes nothing (`Term.erase_eq_self`), and it commutes with substitution
(`Term.erase_subst`). The main theorem is `erasure_projection`.

`Term.erase` erases the body of an erased lambda before the variable is replaced by the universe.
`Erasing` is the recursion that replaces it first, and goes on in a term that is no part of the one it
has come from. Replacing variables by universes does not make a term larger, so this comes to an end
too (`exists_erasing`), and for terms whose indices are machine words both orders give the same
(`Erasing.eq_erase`).
-/

namespace BoxCalculus

namespace Term

/-- Erasure keeps the form of the term and goes on in its parts. -/
def keeps : Term → Bool
  | hole | lam _ _ _ _ | app _ _ _ => false
  | _ => true

/-- There is nothing in the term itself to erase: it is no erased lambda, no erased application and
no lambda with a domain. -/
def relevant : Term → Bool
  | lam erased _ dom _ => !erased && dom.isHole
  | app erased _ _ => !erased
  | _ => true

variable {ar : Arith} {t value : Term}

/-- A form that erasure keeps is there, and is no lambda. -/
theorem keeps_ne_hole (kept : t.keeps = true) : t.isHole = false ∧ t.isLam = false := by
  cases t <;> first | exact ⟨rfl, rfl⟩ | cases kept

/-- Whether erasure keeps a form does not depend on its parts. -/
theorem keeps_withParts (t : Term) (ps : List Term) : (t.withParts ps).keeps = t.keeps := by
  unfold withParts
  split <;> rfl

/-- A form that erasure keeps has nothing to erase. -/
theorem relevant_of_keeps (kept : t.keeps = true) : t.relevant = true := by
  cases t <;> first | rfl | cases kept

/-- Induction on terms by the cases of erasure. -/
@[elab_as_elim]
theorem byErasure {P : Term → Prop} (hole : P hole)
    (lam : ∀ erased name dom body, P body → P (lam erased name dom body))
    (app : ∀ erased fn arg, P fn → P arg → P (app erased fn arg))
    (keep : ∀ t, t.keeps = true → (∀ part ∈ t.parts, P part.2) → P t) (t : Term) : P t := by
  induction t using byParts with
  | step t ih =>
      cases kept : t.keeps with
      | true => exact keep t kept ih
      | false =>
          cases t with
          | hole => exact hole
          | lam erased name dom body =>
              exact lam erased name dom body (ih (1, body) (.tail _ (.head _)))
          | app erased fn arg =>
              exact app erased fn arg (ih (0, fn) (.head _)) (ih (0, arg) (.tail _ (.head _)))
          | _ => cases kept

/-- What holds of the parts that are put in place holds of the parts of the term. -/
theorem forall_parts_withParts {ps : List Term} (same : ps.length = t.parts.length)
    {P : Term → Prop} : (∀ part ∈ (t.withParts ps).parts, P part.2) ↔ ∀ p ∈ ps, P p := by
  conv_rhs => rw [← terms_withParts same, List.forall_mem_map]

end Term

/-- Entries are erased by erasing their terms. -/
theorem Entries.erase_eq_map (ar : Arith) : ∀ entries : Entries,
    entries.erase ar = entries.map (Term.erase ar)
  | .nil => rfl
  | .cons label term rest => by simp [Entries.erase, Entries.map, Entries.erase_eq_map ar rest]

/-- Entries can be erased if their terms can. -/
theorem Entries.erasable_of_terms : ∀ {entries : Entries},
    (∀ entry ∈ entries.toList, entry.2.erasable = true) → entries.erasable = true
  | .nil, _ => rfl
  | .cons label term rest, all => by
      rw [Entries.toList, List.forall_mem_cons] at all
      simp [Entries.erasable, all.1, Entries.erasable_of_terms all.2]

namespace Term

variable {ar : Arith} {t value : Term}

/-- Where the form is kept, erasure acts on each part by itself. -/
theorem erase_eq_withParts (ar : Arith) (kept : t.keeps = true) :
    t.erase ar = t.withParts (t.parts.map fun part => part.2.erase ar) := by
  cases t with
  | hole | lam | app => cases kept
  | data name type ctrs =>
      have count : (ctrs.terms.map (erase ar)).length = ctrs.length := by simp
      simp only [erase, Entries.erase_eq_map, Entries.map_eq_withTerms, parts_data,
        List.map_append, List.map_map, Function.comp_def, List.map_cons, List.map_nil,
        withParts_data, Entries.withTerms_append _ count, List.getLastD_concat]
  | caseOf type value name motive branches =>
      simp only [erase, Entries.erase_eq_map, Entries.map_eq_withTerms, parts_caseOf,
        List.map_cons, List.map_map, Function.comp_def, withParts_caseOf]
  | _ => rfl

/-- A form that erasure keeps can be erased if its parts can. -/
theorem erasable_of_parts (kept : t.keeps = true)
    (all : ∀ part ∈ t.parts, part.2.erasable = true) : t.erasable = true := by
  cases t with
  | hole | lam | app => cases kept
  | data name type ctrs =>
      simp only [parts, List.forall_mem_append, List.forall_mem_map, List.forall_mem_singleton]
        at all
      simp [erasable, all.2, Entries.erasable_of_terms all.1]
  | caseOf type value name motive branches =>
      simp only [parts, List.forall_mem_append, List.forall_mem_cons, List.forall_mem_map] at all
      simp [erasable, all.1, Entries.erasable_of_terms all.2]
  | _ => simp_all [erasable, parts]

/-- An erased lambda is its body, with the universe in place of the variable. -/
@[simp] theorem erase_lam_erased (name : String) (dom body : Term) :
    (lam true name dom body).erase ar = (body.erase ar).subst ar univ 0 := rfl

/-- A lambda loses its domain. -/
@[simp] theorem erase_lam (name : String) (dom body : Term) :
    (lam false name dom body).erase ar = lam false name hole (body.erase ar) := rfl

/-- An application is erased in both parts. -/
@[simp] theorem erase_app (fn arg : Term) :
    (app false fn arg).erase ar = app false (fn.erase ar) (arg.erase ar) := rfl

/-- A term in which at most domains of lambdas are missing can be erased. -/
theorem erasable_of_sound (sound : t.sound = true) : t.erasable = true := by
  induction t using byErasure with
  | hole => cases sound
  | lam erased name dom body ih => exact ih (sound_lam sound)
  | app erased fn arg fn_ih arg_ih =>
      obtain ⟨fn_sound, arg_sound⟩ := sound_app.1 sound
      simp [erasable, fn_ih fn_sound, arg_ih arg_sound]
  | keep t kept ih =>
      obtain ⟨there, other⟩ := keeps_ne_hole kept
      rw [sound_iff_parts there other] at sound
      exact erasable_of_parts kept fun part mem => ih part mem (sound part mem)

/-- A sound term can be erased. -/
theorem erase?_of_sound (sound : t.sound = true) (ar : Arith) :
    t.erase? ar = some (t.erase ar) :=
  if_pos (erasable_of_sound sound)

/-- Erasure leaves no part missing except for the domains of lambdas. -/
theorem sound_erase (sound : t.sound = true) (ar : Arith) : (t.erase ar).sound = true := by
  induction t using byErasure with
  | hole => cases sound
  | lam erased name dom body ih =>
      have body_sound := ih (sound_lam sound)
      cases erased with
      | true => exact sound_subst body_sound rfl ar 0
      | false =>
          obtain ⟨there, intact⟩ := sound_iff.1 body_sound
          rw [erase_lam]
          refine sound_iff.2 ⟨rfl, .intro (by simp [partsThere, there]) ?_⟩
          simp only [parts, List.forall_mem_cons]
          exact ⟨.intro rfl (List.forall_mem_nil _), intact, List.forall_mem_nil _⟩
  | app erased fn arg fn_ih arg_ih =>
      obtain ⟨fn_sound, arg_sound⟩ := sound_app.1 sound
      cases erased with
      | true => exact fn_ih fn_sound
      | false => exact sound_app.2 ⟨fn_ih fn_sound, arg_ih arg_sound⟩
  | keep t kept ih =>
      obtain ⟨there, other⟩ := keeps_ne_hole kept
      rw [sound_iff_parts there other] at sound
      obtain ⟨there', other'⟩ := keeps_ne_hole
        ((keeps_withParts t (t.parts.map fun part => part.2.erase ar)).trans kept)
      rw [erase_eq_withParts ar kept, sound_iff_parts there' other',
        forall_parts_withParts (P := fun u => u.sound = true) (by simp), List.forall_mem_map]
      exact fun part mem => ih part mem (sound part mem)

/-- The traversal replaces variables by variables or by the universe. -/
def Leafy (f : Nat → Int → Term) : Prop :=
  ∀ k i, f k i = univ ∨ ∃ j, f k i = var j

/-- Closing a binder with the universe puts leaves in place of variables. -/
theorem leafy_subst_univ (ar : Arith) (target : Int) : Leafy fun depth i =>
    let here := ar.add target depth
    if i = here then univ.shift ar here 0 else if here < i then var (ar.add i (-1)) else var i := by
  intro k i
  dsimp only
  split
  · exact .inl rfl
  · split
    · exact .inr ⟨_, rfl⟩
    · exact .inr ⟨_, rfl⟩

/-- Replacing variables and then closing a binder with the universe, in one traversal. -/
theorem Leafy.subst_univ {f : Nat → Int → Term} (leafy : Leafy f) (ar : Arith) (t : Term)
    (depth : Nat) : ∃ g, Leafy g ∧ (t.bindVars f depth).subst ar univ 0 = t.bindVars g 0 := by
  have outside : t.bindVars f depth = t.bindVars (fun k => f (depth + k)) 0 :=
    bindVars_congr (fun k i => by rw [Nat.zero_add]) t
  rw [outside, Term.subst, bindVars_bindVars]
  refine ⟨_, fun k i => ?_, rfl⟩
  rcases leafy (depth + k) i with leaf | ⟨j, leaf⟩
  · rw [leaf]
    exact .inl rfl
  · rw [leaf]
    exact leafy_subst_univ ar 0 k j

/-- What is put in place of a variable is there. -/
theorem Leafy.isHole_eq {f : Nat → Int → Term} (leafy : Leafy f) (k : Nat) (i : Int) :
    (f k i).isHole = false := by
  rcases leafy k i with leaf | ⟨j, leaf⟩
  · rw [leaf]; rfl
  · rw [leaf]; rfl

/-- Putting leaves in place of variables leaves nothing to erase. -/
theorem relevant_bindVars {f : Nat → Int → Term} (leafy : Leafy f) {depth : Nat}
    (all : t.everywhere relevant = true) : (t.bindVars f depth).everywhere relevant = true := by
  induction t using byParts generalizing depth with
  | step t ih =>
      by_cases isVar : ∃ i, t = var i
      · obtain ⟨i, rfl⟩ := isVar
        rcases leafy depth i with leaf | ⟨j, leaf⟩
        · rw [bindVars, leaf]; rfl
        · rw [bindVars, leaf]; rfl
      · rw [not_exists] at isVar
        rw [everywhere_iff] at all ⊢
        constructor
        · cases t with
          | var i => exact absurd rfl (isVar i)
          | lam erased name dom body =>
              simpa [bindVars, relevant, isHole_bindVars leafy.isHole_eq] using all.1
          | app => exact all.1
          | _ => rfl
        · rw [parts_bindVars f depth isVar, List.forall_mem_map]
          exact fun part mem => ih part mem (all.2 part mem)

/-- What erasure gives has no erased lambda, no erased application and no domain of a lambda. -/
theorem relevant_erase (t : Term) (ar : Arith) : (t.erase ar).everywhere relevant = true := by
  induction t using byErasure with
  | hole => rfl
  | lam erased name dom body ih =>
      cases erased with
      | true => exact relevant_bindVars (leafy_subst_univ ar 0) ih
      | false => exact everywhere_iff.2 ⟨rfl, by simp [parts, everywhere, relevant, ih]⟩
  | app erased fn arg fn_ih arg_ih =>
      cases erased with
      | true => exact fn_ih
      | false => exact everywhere_iff.2 ⟨rfl, by simp [parts, fn_ih, arg_ih]⟩
  | keep t kept ih =>
      rw [erase_eq_withParts ar kept, everywhere_iff,
        forall_parts_withParts (P := fun u => u.everywhere relevant = true) (by simp),
        List.forall_mem_map]
      exact ⟨relevant_of_keeps ((keeps_withParts ..).trans kept), ih⟩

/-- Where there is nothing to erase, erasure changes nothing. -/
theorem erase_eq_self (ar : Arith) (all : t.everywhere relevant = true) : t.erase ar = t := by
  induction t using byErasure with
  | hole => rfl
  | lam erased name dom body ih =>
      obtain ⟨here, parts⟩ := everywhere_iff.1 all
      have body_all := parts (1, body) (.tail _ (.head _))
      simp only [relevant, Bool.and_eq_true, Bool.not_eq_true', isHole_iff] at here
      obtain ⟨rfl, rfl⟩ := here
      rw [erase_lam, ih body_all]
  | app erased fn arg fn_ih arg_ih =>
      obtain ⟨here, parts⟩ := everywhere_iff.1 all
      simp only [relevant, Bool.not_eq_true'] at here
      subst here
      rw [erase_app, fn_ih (parts (0, fn) (.head _)), arg_ih (parts (0, arg) (.tail _ (.head _)))]
  | keep t kept ih =>
      rw [erase_eq_withParts ar kept]
      conv_rhs => rw [← withParts_parts t]
      refine congrArg t.withParts (List.map_congr_left fun part mem => ?_)
      exact ih part mem ((everywhere_iff.1 all).2 part mem)

/-- Erasing after an instantiation is instantiating what has been erased, if the two assignments fit
together below all binders. -/
theorem erase_inst {σ τ : Assign} (fit : ∀ n i, (σ.upBy n i).erase .exact = τ.upBy n i) (t : Term) :
    (t.inst σ).erase .exact = (t.erase .exact).inst τ := by
  have fit_up : ∀ {σ τ : Assign}, (∀ n i, (σ.upBy n i).erase .exact = τ.upBy n i) → ∀ m n i,
      ((σ.upBy m).upBy n i).erase .exact = (τ.upBy m).upBy n i := by
    intro σ τ fit m n i
    rw [Assign.upBy_upBy, Assign.upBy_upBy]
    exact fit (m + n) i
  induction t using byErasure generalizing σ τ with
  | hole => rfl
  | lam erased name dom body ih =>
      have body_eq := ih (fit_up fit 1)
      cases erased with
      | true =>
          -- The variable of the lambda is closed on both sides, and the universe has no variables.
          rw [inst_lam, erase_lam_erased, erase_lam_erased, subst_zero, subst_zero, inst_close_inst,
            inst_univ]
          exact congrArg (fun u => u.inst (Assign.close univ)) body_eq
      | false =>
          rw [inst_lam, erase_lam, erase_lam, inst_lam, inst_hole]
          exact congrArg (lam false name hole) body_eq
  | app erased fn arg fn_ih arg_ih =>
      cases erased with
      | true => exact fn_ih fit
      | false =>
          rw [inst_app, erase_app, erase_app, inst_app, fn_ih fit, arg_ih fit]
  | keep t kept ih =>
      by_cases isVar : ∃ i, t = var i
      · obtain ⟨i, rfl⟩ := isVar
        rcases lt_or_ge i 0 with negative | nonneg
        · rw [inst_negative negative]
          exact (inst_negative negative τ).symm
        · obtain ⟨i, rfl⟩ := Int.eq_ofNat_of_zero_le nonneg
          show ((var (i : Int)).inst σ).erase .exact = (var (i : Int)).inst τ
          rw [inst_var, inst_var]
          exact fit 0 i
      · rw [not_exists] at isVar
        rw [inst_eq_withParts σ isVar, erase_eq_withParts .exact kept,
          inst_withParts τ isVar (by simp),
          erase_eq_withParts .exact ((keeps_withParts ..).trans kept),
          map_parts_withParts (by simp), withParts_withParts _ (by simp) (by simp), List.zip_map',
          List.map_map, List.map_map]
        refine congrArg t.withParts (List.map_congr_left fun part mem => ?_)
        exact ih part mem (fit_up fit part.1)

/-- Erasing after variables have been raised. -/
theorem erase_raise (t : Term) :
    (t.inst (Assign.raise 1)).erase .exact = (t.erase .exact).inst (Assign.raise 1) := by
  have vars : ∀ n i, ∃ j : Nat, (Assign.raise 1).upBy n i = var j := by
    intro n
    induction n with
    | zero => exact fun i => ⟨i + 1, rfl⟩
    | succ n ih =>
        intro i
        cases i with
        | zero => exact ⟨0, rfl⟩
        | succ i =>
            obtain ⟨j, raised⟩ := ih i
            exact ⟨j + 1, by rw [Assign.upBy, Assign.up_succ, raised, inst_var]; rfl⟩
  refine erase_inst (fun n i => ?_) t
  obtain ⟨j, raised⟩ := vars n i
  rw [raised]
  rfl

/-- Erasing after a substitution is substituting what has been erased. -/
theorem erase_subst (t value : Term) (target : Nat) :
    (t.subst .exact value target).erase .exact =
      (t.erase .exact).subst .exact (value.erase .exact) target := by
  have close : ∀ i, (Assign.close value i).erase .exact = Assign.close (value.erase .exact) i := by
    intro i
    cases i <;> rfl
  rw [subst_eq_inst, subst_eq_inst]
  refine erase_inst (fun n i => ?_) t
  rw [Assign.upBy_upBy, Assign.upBy_upBy]
  refine Assign.related_upBy (R := fun t u => t.erase .exact = u) rfl ?_ close _ i
  rintro t _ rfl
  exact erase_raise t

/-- The indices of the term are machine words, and so are the numbers of binders around them. -/
def inWords (t : Term) : Bool :=
  t.allVars (wordBelow (2 ^ 63)) 0

/-- The indices of a part are machine words if those of the term are. -/
theorem inWords_part (words : t.inWords = true) {part : Nat × Term} (mem : part ∈ t.parts) :
    part.2.inWords = true := by
  have compound : ∀ i, t ≠ var i := by
    rintro i rfl
    cases mem
  rw [inWords, allVars_eq_all _ _ compound, List.all_eq_true] at words
  exact wordBelow_mono (by omega) (words part mem)

/-- Closing a binder with the universe overflows nothing. -/
theorem subst_univ_word (words : t.inWords = true) :
    t.subst .word univ 0 = t.subst .exact univ 0 := by
  refine bindVars_eq_iff.2 (allVars_mono (fun k i word => ?_) words)
  rw [Nat.zero_add, wordBelow_iff] at word
  simp only [Nat.zero_add, Arith.exact_add, Int.zero_add, Arith.word_zero_add word.1,
    decide_eq_true_eq]
  split
  · rfl
  · split
    · rw [Arith.word_add_eq (by omega) (by omega)]
    · rfl

/-- Closing a binder with the universe leaves machine words. -/
theorem words_subst_univ {outer inner : Nat} (below : outer ≤ inner)
    (words : t.allVars (wordBelow (2 ^ 63)) inner = true) :
    (t.subst .exact univ 0).allVars (wordBelow (2 ^ 63)) outer = true := by
  rw [subst_exact]
  refine allVars_bindVars_of (fun k i word => ?_) words
  rw [wordBelow_iff] at word
  split
  · rfl
  · split
    · exact wordBelow_iff.2 (by omega)
    · exact wordBelow_iff.2 (by omega)

/-- Erasure overflows nothing, and leaves machine words. -/
theorem erase_word {depth : Nat} (words : t.allVars (wordBelow (2 ^ 63)) depth = true) :
    t.erase .word = t.erase .exact ∧ (t.erase .exact).allVars (wordBelow (2 ^ 63)) depth = true := by
  induction t using byErasure generalizing depth with
  | hole => exact ⟨rfl, rfl⟩
  | lam erased name dom body ih =>
      obtain ⟨-, body_words⟩ := Bool.and_eq_true_iff.1 words
      obtain ⟨same, erased_words⟩ := ih body_words
      cases erased with
      | true =>
          rw [erase_lam_erased, erase_lam_erased, same,
            subst_univ_word (wordBelow_mono (by omega) erased_words)]
          exact ⟨rfl, words_subst_univ (Nat.le_succ depth) erased_words⟩
      | false =>
          rw [erase_lam, erase_lam, same]
          exact ⟨rfl, erased_words⟩
  | app erased fn arg fn_ih arg_ih =>
      obtain ⟨fn_words, arg_words⟩ := Bool.and_eq_true_iff.1 words
      obtain ⟨fn_same, fn_erased⟩ := fn_ih fn_words
      obtain ⟨arg_same, arg_erased⟩ := arg_ih arg_words
      cases erased with
      | true => exact ⟨fn_same, fn_erased⟩
      | false =>
          rw [erase_app, erase_app, fn_same, arg_same]
          exact ⟨rfl, Bool.and_eq_true_iff.2 ⟨fn_erased, arg_erased⟩⟩
  | keep t kept ih =>
      by_cases isVar : ∃ i, t = var i
      · obtain ⟨i, rfl⟩ := isVar
        exact ⟨rfl, words⟩
      · rw [not_exists] at isVar
        rw [allVars_eq_all _ _ isVar, List.all_eq_true] at words
        rw [erase_eq_withParts .word kept, erase_eq_withParts .exact kept]
        constructor
        · refine congrArg t.withParts (List.map_congr_left fun part mem => ?_)
          exact (ih part mem (words part mem)).1
        · rw [allVars_eq_all _ _ (withParts_ne_var isVar _), parts_withParts (by simp),
            List.zip_map', List.all_eq_true, List.forall_mem_map]
          exact fun part mem => (ih part mem (words part mem)).2

/-- The universe may be put in place before or after erasing. -/
theorem erase_subst_univ (words : t.inWords = true) :
    (t.subst .word univ 0).erase .word = (t.erase .word).subst .word univ 0 := by
  obtain ⟨same, erased_words⟩ := erase_word words
  have placed_words : (t.subst .exact univ 0).inWords = true :=
    words_subst_univ (Nat.le_refl 0) words
  calc
    (t.subst .word univ 0).erase .word = (t.subst .exact univ 0).erase .exact := by
      rw [subst_univ_word words, (erase_word placed_words).1]
    _ = (t.erase .exact).subst .exact univ 0 := erase_subst t univ 0
    _ = (t.erase .word).subst .word univ 0 := by
      rw [same, subst_univ_word erased_words]

end Term

/-- `Erasing ar t r` is a run of the recursion that erases `t` to `r` and replaces the variable of an
erased lambda by the universe before it goes on in the body. `f` is what the runs for the parts of a
form give; gaps are passed by. -/
inductive Erasing (ar : Arith) : Term → Term → Prop where
  | drop {name dom body r} : Erasing ar (body.subst ar .univ 0) r →
      Erasing ar (.lam true name dom body) r
  | lam {name dom body r} : Erasing ar body r →
      Erasing ar (.lam false name dom body) (.lam false name .hole r)
  | skip {fn arg r} : Erasing ar fn r → Erasing ar (.app true fn arg) r
  | app {fn arg r s} : Erasing ar fn r → Erasing ar arg s →
      Erasing ar (.app false fn arg) (.app false r s)
  | keep {t : Term} {f : Term → Term} : t.keeps = true → f .hole = .hole →
      (∀ part ∈ t.parts, part.2 ≠ .hole → Erasing ar part.2 (f part.2)) →
      Erasing ar t (t.withParts (t.parts.map fun part => f part.2))

variable {ar : Arith} {t r : Term}

/-- If there are runs for the parts of a form, there is one for the form. -/
theorem exists_erasing_of_parts (kept : t.keeps = true)
    (parts : ∀ part ∈ t.parts, part.2 ≠ .hole → ∃ r, Erasing ar part.2 r) :
    ∃ r, Erasing ar t r := by
  classical
  refine ⟨_, .keep (f := fun u => if u = .hole then .hole else Classical.epsilon (Erasing ar u)) kept
    (if_pos rfl) fun part mem there => ?_⟩
  rw [if_neg there]
  exact Classical.epsilon_spec (parts part mem there)

/-- The recursion comes to an end, also after variables have been replaced by variables or universes.
The body of an erased lambda is such a term, so it counts as a part although it has been changed. -/
theorem exists_erasing_bindVars (sound : t.sound = true) {f : Nat → Int → Term}
    (leafy : Term.Leafy f) (depth : Nat) : ∃ r, Erasing ar (t.bindVars f depth) r := by
  induction t using Term.byErasure generalizing f depth with
  | hole => cases sound
  | lam erased name dom body ih =>
      have body_sound := Term.sound_lam sound
      cases erased with
      | true =>
          obtain ⟨g, leafy', once⟩ := leafy.subst_univ ar body (depth + 1)
          obtain ⟨r, run⟩ := ih body_sound leafy' 0
          rw [← once] at run
          exact ⟨r, .drop run⟩
      | false =>
          obtain ⟨r, run⟩ := ih body_sound leafy (depth + 1)
          exact ⟨_, .lam run⟩
  | app erased fn arg fn_ih arg_ih =>
      obtain ⟨fn_sound, arg_sound⟩ := Term.sound_app.1 sound
      obtain ⟨r, run⟩ := fn_ih fn_sound leafy depth
      obtain ⟨s, run'⟩ := arg_ih arg_sound leafy depth
      cases erased with
      | true => exact ⟨r, .skip run⟩
      | false => exact ⟨_, .app run run'⟩
  | keep t kept ih =>
      obtain ⟨there, other⟩ := Term.keeps_ne_hole kept
      rw [Term.sound_iff_parts there other] at sound
      by_cases isVar : ∃ i, t = .var i
      · obtain ⟨i, rfl⟩ := isVar
        rcases leafy depth i with leaf | ⟨j, leaf⟩
        · rw [Term.bindVars, leaf]
          exact exists_erasing_of_parts rfl fun _ mem => by cases mem
        · rw [Term.bindVars, leaf]
          exact exists_erasing_of_parts rfl fun _ mem => by cases mem
      · rw [not_exists] at isVar
        refine exists_erasing_of_parts ?_ ?_
        · rw [Term.bindVars_eq_withParts f depth isVar]
          exact (Term.keeps_withParts ..).trans kept
        · rw [Term.parts_bindVars f depth isVar, List.forall_mem_map]
          exact fun part mem _ => ih part mem (sound part mem) leafy (depth + part.1)

/-- The recursion comes to an end. -/
theorem exists_erasing (ar : Arith) (sound : t.sound = true) : ∃ r, Erasing ar t r := by
  have run : ∃ r, Erasing ar (t.bindVars (fun _ i => .var i) 0) r :=
    exists_erasing_bindVars sound (fun _ i => .inr ⟨i, rfl⟩) 0
  rwa [Term.bindVars_var] at run

/-- In whichever order the variables of erased lambdas are replaced, the result is the same. -/
theorem Erasing.eq_erase (run : Erasing .word t r) (sound : t.sound = true)
    (words : t.inWords = true) : r = t.erase .word := by
  induction run with
  | @drop name dom body r _ ih =>
      have body_words : body.inWords = true := Term.inWords_part words (.tail _ (.head _))
      rw [Term.erase_lam_erased, ← Term.erase_subst_univ body_words]
      refine ih (Term.sound_subst (Term.sound_lam sound) rfl .word 0) ?_
      rw [Term.subst_univ_word body_words]
      exact Term.words_subst_univ (Nat.le_refl 0) body_words
  | lam _ ih =>
      rw [Term.erase_lam, ← ih (Term.sound_lam sound) (Term.inWords_part words (.tail _ (.head _)))]
  | skip _ ih =>
      exact ih (Term.sound_app.1 sound).1 (Term.inWords_part words (.head _))
  | app _ _ ih ih' =>
      obtain ⟨fn_sound, arg_sound⟩ := Term.sound_app.1 sound
      rw [Term.erase_app, ← ih fn_sound (Term.inWords_part words (.head _)),
        ← ih' arg_sound (Term.inWords_part words (.tail _ (.head _)))]
  | @keep t f kept _ _ ih =>
      obtain ⟨there, other⟩ := Term.keeps_ne_hole kept
      rw [Term.sound_iff_parts there other] at sound
      rw [Term.erase_eq_withParts .word kept]
      refine congrArg t.withParts (List.map_congr_left fun part mem => ?_)
      have part_there : part.2 ≠ .hole := by
        intro gap
        have part_sound := sound part mem
        rw [gap] at part_sound
        cases part_sound
      exact ih part mem part_there (sound part mem) (Term.inWords_part words mem)

/-- The recursion gives what erasing gives. -/
theorem erasing_iff (sound : t.sound = true) (words : t.inWords = true) :
    Erasing .word t r ↔ r = t.erase .word := by
  constructor
  · exact fun run => run.eq_erase sound words
  · rintro rfl
    obtain ⟨u, run⟩ := exists_erasing .word sound
    exact run.eq_erase sound words ▸ run

/-- Replacing the variables of erased lambdas first, erasing after a substitution is substituting what
has been erased, unless a sum overflows. -/
theorem erasing_subst_iff {v t' v' : Term} {k : Nat} (sound : t.sound = true)
    (v_sound : v.sound = true) (words : t.inWords = true) (v_words : v.inWords = true)
    (placed_words : (t.subst .word v k).inWords = true) (run : Erasing .word t t')
    (v_run : Erasing .word v v') (safe : OverflowFree fun ar => (t.subst ar v k, t'.subst ar v' k)) :
    Erasing .word (t.subst .word v k) r ↔ r = t'.subst .word v' k := by
  obtain ⟨placed_safe, erased_safe⟩ := Prod.mk.inj safe
  rw [erasing_iff (Term.sound_subst sound v_sound .word k) placed_words]
  rw [erasing_iff sound words, (Term.erase_word words).1] at run
  rw [erasing_iff v_sound v_words, (Term.erase_word v_words).1] at v_run
  have law := calc
    (t.subst .word v k).erase .word = (t.subst .exact v k).erase .exact := by
      rw [(Term.erase_word placed_words).1, placed_safe]
    _ = t'.subst .exact v' k := by rw [Term.erase_subst, run, v_run]
    _ = t'.subst .word v' k := erased_safe.symm
  rw [law]

/-- Erasure is a projection, for terms in which at most domains of lambdas are missing. It gives a
term, in which no lambda and no application is erased and no lambda has a domain, and which it does not
change any more. The recursion that replaces the variable of an erased lambda before it goes on comes
to an end, and gives this term if the indices are machine words. Unless a sum overflows, erasing
after a substitution is substituting what has been erased, and so it is for the recursion. -/
theorem erasure_projection {t : Term} (sound : t.sound = true) :
    (∃ r, t.erase? .word = some r ∧ r.everywhere Term.relevant = true ∧
      r.erase? .word = some r ∧ (∃ u, Erasing .word t u) ∧
      (t.inWords = true → ∀ u, Erasing .word t u ↔ u = r)) ∧
    ∀ v : Term, v.sound = true → ∀ k : Int, 0 ≤ k →
      AgreeUnlessOverflow (fun ar => (t.subst ar v k).erase? ar)
        (fun ar => do
          let t' ← t.erase? ar
          let v' ← v.erase? ar
          return t'.subst ar v' k) ∧
      (t.inWords = true → v.inWords = true → (t.subst .word v k).inWords = true →
        ∀ t' v', Erasing .word t t' → Erasing .word v v' →
          OverflowFree (fun ar => (t.subst ar v k, t'.subst ar v' k)) →
          ∀ u, Erasing .word (t.subst .word v k) u ↔ u = t'.subst .word v' k) := by
  constructor
  · have all := Term.relevant_erase t .word
    refine ⟨t.erase .word, Term.erase?_of_sound sound .word, all, ?_, exists_erasing .word sound,
      fun words _ => erasing_iff sound words⟩
    rw [Term.erase?_of_sound (Term.sound_erase sound .word), Term.erase_eq_self .word all]
  · intro v v_sound k nonneg
    obtain ⟨k, rfl⟩ := Int.eq_ofNat_of_zero_le nonneg
    constructor
    · refine .of_exact ?_
      rw [Term.erase?_of_sound (Term.sound_subst sound v_sound .exact k),
        Term.erase?_of_sound sound, Term.erase?_of_sound v_sound, Term.erase_subst]
      rfl
    · intro words v_words placed_words t' v' run v_run safe u
      exact erasing_subst_iff sound v_sound words v_words placed_words run v_run safe

/-- An erased lambda around another one, with a domain that is erased together with it. The inner body
applies a free variable to an erased and to a kept argument, below a lambda that stays. -/
def layeredErasure : Term :=
  .lam true "A" .univ (.lam true "B" (.var 0) (.lam false "x" (.var 1)
    (.app false (.app true (.var 3) (.var 2)) (.pair true (.var 1) (.var 0) (.var 2)))))

/-- The substitution puts an erased lambda in place of the free variable. -/
theorem erasure_projection_layered :
    layeredErasure.sound = true ∧
    (∃ r, layeredErasure.erase? .word = some r ∧ r.everywhere Term.relevant = true ∧
      r.erase? .word = some r ∧ ∀ u, Erasing .word layeredErasure u ↔ u = r) ∧
    (layeredErasure.subst .word (.lam true "y" .hole (.var 4)) 0).erase? .word =
      some (.lam false "x" .hole (.app false (.var 4) (.pair true .univ (.var 0) .univ))) ∧
    Erasing .word (layeredErasure.subst .word (.lam true "y" .hole (.var 4)) 0)
      (.lam false "x" .hole (.app false (.var 4) (.pair true .univ (.var 0) .univ))) := by
  have projection := erasure_projection (t := layeredErasure) (by decide)
  obtain ⟨⟨r, erased, all, again, -, runs⟩, commutes⟩ := projection
  obtain ⟨placed, recursion⟩ := commutes (.lam true "y" .hole (.var 4)) (by decide) 0 (by decide)
  refine ⟨by decide, ⟨r, erased, all, again, runs (by decide)⟩, placed (by decide +kernel), ?_⟩
  have run : Erasing .word layeredErasure
      (.lam false "x" .hole (.app false (.var 1) (.pair true .univ (.var 0) .univ))) :=
    (runs (by decide) _).2 (Option.some.inj erased.symm ▸ rfl)
  have v_run : Erasing .word (.lam true "y" .hole (.var 4)) (.var 3) :=
    (erasing_iff (by decide) (by decide)).2 rfl
  exact (recursion (by decide) (by decide) (by decide) _ _ run v_run (by decide +kernel) _).2 rfl

end BoxCalculus
