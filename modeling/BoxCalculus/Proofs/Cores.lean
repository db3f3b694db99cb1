import BoxCalculus.Proofs.Conversion
import BoxCalculus.Proofs.Cosmetics
import BoxCalculus.Proofs.Stability

/-!
# Cores of terms

The core of a term is what the types of other terms can depend on. It has no boxes and no duplications:
a box is its content, and a duplication is its body with the content in place. It has no annotations
either: the domain of a function, the type of a pair, the declaration that a constructor or a case
analysis names, and the motives are forgotten.

Cores commute with instantiation (`Term.core_inst`). A duplication that moves outward does not change
the core of a term, nor does one that opens a box, and the other rules are rules for cores, so terms
that are convertible have convertible cores (`Conv.core`).
-/

namespace BoxCalculus

mutual

/-- The term without boxes, duplications, annotations, names and marks. -/
def Term.core : Term → Term
  | .hole => .hole
  | .var index => .var index
  | .univ => .univ
  | .ref name => .ref name
  | .pi _ _ dom cod => .pi false "" dom.core cod.core
  | .lam _ _ _ body => .lam false "" .hole body.core
  | .app _ fn arg => .app false fn.core arg.core
  | .sigma _ _ fst snd => .sigma false "" fst.core snd.core
  | .pair _ _ fst snd => .pair false .hole fst.core snd.core
  | .split _ scrutinee _ _ _ _ body => .split false scrutinee.core "" .hole "" "" body.core
  | .data _ type ctrs => .data "" type.core ctrs.core
  | .ctr label _ => .ctr label .hole
  | .caseOf _ value _ _ branches => .caseOf .hole value.core "" .hole branches.core
  | .dup _ value body => body.core.inst (Assign.close value.core)
  | .box value => value.core
  | .boxType type => .boxType type.core

/-- The entries with the cores of their terms. -/
def Entries.core : Entries → Entries
  | .nil => .nil
  | .cons label term rest => .cons label term.core rest.core

end

/-- The core of entries is that of their terms. -/
theorem Entries.core_eq_map : ∀ entries : Entries, entries.core = entries.map Term.core
  | .nil => rfl
  | .cons label term rest => by simp [Entries.core, Entries.map, Entries.core_eq_map rest]

/-- The core of a term does not depend on names and marks. -/
theorem Term.core_strip (mark : Bool → Bool) (t : Term) : (t.strip mark).core = t.core := by
  induction t with
  | data name type ctrs type_ih ctrs_ih =>
      simp only [strip, core, type_ih, Entries.strip_eq_map, Entries.core_eq_map, Entries.map_map]
      exact congrArg (data "" _) (Entries.map_congr ctrs_ih)
  | caseOf type value name motive branches _ value_ih _ branches_ih =>
      simp only [strip, core, value_ih, Entries.strip_eq_map, Entries.core_eq_map, Entries.map_map]
      exact congrArg (caseOf _ _ "" _) (Entries.map_congr branches_ih)
  | _ => simp_all [strip, core]

/-- Terms that are equal up to cosmetics have the same core. -/
theorem Term.core_eq_of_equal {t u : Term} (equal : t.equal u = true) : t.core = u.core := by
  rw [← t.core_strip fun _ => false, (Term.equal_iff_strip t u).1 equal, Term.core_strip]

/-- The core of a spine is made of those of the head and the arguments. -/
theorem Term.core_apply (head : Term) (args : List (Bool × Term)) :
    (head.apply args).core = head.core.apply (args.map fun arg => (false, arg.2.core)) := by
  induction args generalizing head with
  | nil => rfl
  | cons arg args ih => exact ih (.app arg.1 head arg.2)

/-- The cores of what an assignment puts in place of variables. -/
def Assign.core (σ : Assign) : Assign :=
  fun i => (σ i).core

/-- Instantiating a core, with an assignment that has cores below all binders. -/
theorem Term.core_inst_of_upBy {σ τ : Assign} (placed : ∀ n, (σ.upBy n).core = τ.upBy n) (t : Term) :
    (t.inst σ).core = t.core.inst τ := by
  have below : ∀ {σ τ : Assign}, (∀ n, (σ.upBy n).core = τ.upBy n) →
      ∀ m n, ((σ.upBy m).upBy n).core = (τ.upBy m).upBy n := fun placed m n => by
    rw [Assign.upBy_upBy, Assign.upBy_upBy, placed]
  induction t generalizing σ τ with
  | var i =>
      by_cases negative : i < 0
      · rw [inst_negative negative, core, inst_negative negative]
      · obtain ⟨n, rfl⟩ := Int.eq_ofNat_of_zero_le (Int.not_lt.1 negative)
        rw [core, inst_var, inst_var]
        exact congrFun (placed 0) n
  | hole | univ | ref | ctr => rfl
  | pi erased name dom cod dom_ih cod_ih =>
      have cods : (cod.inst σ.up).core = cod.core.inst τ.up := cod_ih (below placed 1)
      simp only [inst_pi, core, dom_ih placed, cods]
  | lam erased name dom body _ body_ih =>
      have bodies : (body.inst σ.up).core = body.core.inst τ.up := body_ih (below placed 1)
      simp only [inst_lam, core, bodies, inst_hole]
  | app erased fn arg fn_ih arg_ih => simp only [inst_app, core, fn_ih placed, arg_ih placed]
  | sigma erased name fst snd fst_ih snd_ih =>
      have snds : (snd.inst σ.up).core = snd.core.inst τ.up := snd_ih (below placed 1)
      simp only [inst_sigma, core, fst_ih placed, snds]
  | pair erased type fst snd _ fst_ih snd_ih =>
      simp only [inst_pair, core, fst_ih placed, snd_ih placed, inst_hole]
  | split erased scrutinee name motive fstName sndName body scrutinee_ih _ body_ih =>
      have bodies : (body.inst σ.up.up).core = body.core.inst τ.up.up := body_ih (below placed 2)
      simp only [inst_split, core, scrutinee_ih placed, bodies, inst_hole]
  | data name type ctrs type_ih ctrs_ih =>
      simp only [inst_data, core, type_ih placed, Entries.core_eq_map, Entries.map_map]
      exact congrArg (data "" _)
        (Entries.map_congr fun entry mem => ctrs_ih entry mem (below placed 1))
  | caseOf type value name motive branches _ value_ih _ branches_ih =>
      simp only [inst_caseOf, core, value_ih placed, Entries.core_eq_map, Entries.map_map, inst_hole]
      exact congrArg (caseOf _ _ "" _)
        (Entries.map_congr fun entry mem => branches_ih entry mem placed)
  | dup name value body value_ih body_ih =>
      have bodies : (body.inst σ.up).core = body.core.inst τ.up := body_ih (below placed 1)
      simp only [inst_dup, core, value_ih placed, bodies, inst_close_inst]
  | box value value_ih => exact value_ih placed
  | boxType type type_ih => simp only [inst_boxType, core, type_ih placed]

/-- Making room commutes with taking the core. -/
theorem Term.core_raise (t : Term) (n : Nat) :
    (t.inst (Assign.raise n)).core = t.core.inst (Assign.raise n) := by
  refine core_inst_of_upBy (fun k => funext fun i => ?_) t
  obtain ⟨j, same⟩ := Assign.raise_upBy n k i
  rw [Assign.core, same, core]

/-- The core of an instantiated term is its core, instantiated with cores. -/
theorem Term.core_inst (t : Term) (σ : Assign) : (t.inst σ).core = t.core.inst σ.core := by
  refine core_inst_of_upBy (fun n => funext fun i => ?_) t
  exact Assign.related_upBy (R := fun t u => t.core = u) rfl
    (fun t u same => same ▸ t.core_raise 1) (fun _ => rfl) n i

/-- Going below a binder commutes with taking cores. -/
theorem Assign.core_up (σ : Assign) : σ.up.core = σ.core.up := by
  funext i
  cases i with
  | zero => rfl
  | succ i => rw [core, up_succ, up_succ, Term.core_raise, core]

/-- Closing with a value has cores that close with its core. -/
theorem Assign.core_close (value : Term) : (close value).core = close value.core := by
  funext i
  cases i <;> rfl

/-- Closing a binder commutes with taking cores. -/
theorem Term.core_close (t value : Term) :
    (t.inst (Assign.close value)).core = t.core.inst (Assign.close value.core) := by
  rw [core_inst, Assign.core_close]

/-- What a form looks at is seen through its core. -/
theorem Frame.core_fill {t u : Term} (E : Frame) (same : t.core = u.core) :
    (E.fill t).core = (E.fill u).core := by
  cases E <;> simp only [Frame.fill, Term.core, same]

/-- A duplication that moves outward does not change the core. -/
theorem Floats.core {t u : Term} (floats : Floats t u) : t.core = u.core := by
  obtain ⟨E, name, value, body⟩ := floats
  have opened : (Term.dup name value body).core = (body.inst (Assign.close value)).core :=
    (Term.core_close body value).symm
  rw [E.core_fill opened, Term.core, ← Term.core_close, Frame.inst_fill, Frame.inst_lift_close]

/-- The other rules are rules for cores. -/
theorem Computes.core {t u : Term} (computes : Computes .empty t u) :
    Steps .exact .empty t.core u.core := by
  have rule : ∀ {t u : Term}, Computes .empty t u → Steps .exact .empty t u :=
    fun computes => .single (.root _ _ (.of_computes computes))
  cases computes with
  | beta =>
      rw [Term.core_close]
      exact rule (.beta ..)
  | unpair =>
      rw [Term.core_close, Term.core_close, Term.core_raise]
      exact rule (.unpair ..)
  | unbox =>
      rw [Term.core_close]
      exact .refl
  | select type label ctrType args name motive branches branch found =>
      simp only [Term.core, Term.core_apply, Entries.core_eq_map]
      exact rule (.select _ _ _ _ _ _ _ _ (by rw [Entries.find?_map, found]; rfl))
  | unfold name t found => cases found

/-- Terms whose parts have convertible cores have convertible cores. -/
theorem Parted.core {t u : Term} (parted : Parted (fun p q => Conv p.core q.core) t u) :
    Conv t.core u.core := by
  have related : ∀ {entries entries' : Entries},
      entries.Related (fun p q => Conv p.core q.core) entries' →
      entries.core.Related Conv entries'.core := fun related => by
    rw [Entries.core_eq_map, Entries.core_eq_map]
    exact related.map id
  cases t with
  | hole | var | univ | ref =>
      rw [(Parted.leaf_iff rfl).1 parted]
      exact .refl _
  | pi =>
      obtain ⟨_, _, dom, cod, rfl⟩ := Parted.pi_iff.1 parted
      exact .of_parts (Parted.pi_iff.2 ⟨_, _, dom, cod, rfl⟩)
  | lam =>
      obtain ⟨_, _, -, body, rfl⟩ := Parted.lam_iff.1 parted
      exact .of_parts (Parted.lam_iff.2 ⟨_, _, .refl _, body, rfl⟩)
  | app =>
      obtain ⟨_, _, fn, arg, rfl⟩ := Parted.app_iff.1 parted
      exact .of_parts (Parted.app_iff.2 ⟨_, _, fn, arg, rfl⟩)
  | sigma =>
      obtain ⟨_, _, fst, snd, rfl⟩ := Parted.sigma_iff.1 parted
      exact .of_parts (Parted.sigma_iff.2 ⟨_, _, fst, snd, rfl⟩)
  | pair =>
      obtain ⟨_, _, _, -, fst, snd, rfl⟩ := Parted.pair_iff.1 parted
      exact .of_parts (Parted.pair_iff.2 ⟨_, _, _, .refl _, fst, snd, rfl⟩)
  | split =>
      obtain ⟨_, _, _, scrutinee, -, body, rfl⟩ := Parted.split_iff.1 parted
      exact .of_parts (Parted.split_iff.2 ⟨_, _, _, scrutinee, .refl _, body, rfl⟩)
  | data =>
      obtain ⟨_, _, type, ctrs, rfl⟩ := Parted.data_iff.1 parted
      exact .of_parts (Parted.data_iff.2 ⟨_, _, type, related ctrs, rfl⟩)
  | ctr =>
      obtain ⟨_, -, rfl⟩ := Parted.ctr_iff.1 parted
      exact .refl _
  | caseOf =>
      obtain ⟨_, _, _, _, -, value, -, branches, rfl⟩ := Parted.caseOf_iff.1 parted
      exact .of_parts (Parted.caseOf_iff.2
        ⟨_, _, _, _, .refl _, value, .refl _, related branches, rfl⟩)
  | dup =>
      obtain ⟨_, _, value, body, rfl⟩ := Parted.dup_iff.1 parted
      exact body.close value
  | box =>
      obtain ⟨_, value, rfl⟩ := Parted.box_iff.1 parted
      exact value
  | boxType =>
      obtain ⟨_, type, rfl⟩ := Parted.boxType_iff.1 parted
      exact .of_parts (Parted.boxType_iff.2 ⟨_, type, rfl⟩)

/-- A rule at the root keeps the core up to conversion. -/
theorem Contracts.core {t u : Term} (contracts : Contracts .exact .empty t u) :
    Conv t.core u.core := by
  rcases contracts_exact_iff.1 contracts with computes | floats
  · exact .of_steps computes.core
  · rw [floats.core]
    exact .refl _

/-- A step does not change the core, up to conversion. -/
theorem Step.core {t u : Term} (step : Step .exact .empty t u) : Conv t.core u.core := by
  induction t using Term.byParts generalizing u with
  | step t ih =>
      rcases step.root_or_parts with contracts | parts
      · exact contracts.core
      · refine Parted.core (parts.imp fun part mem p step => ?_)
        cases step with
        | refl => exact .refl _
        | single step => exact ih part mem step

/-- Rewriting does not change the core, up to conversion. -/
theorem Steps.core {t u : Term} (steps : Steps .exact .empty t u) : Conv t.core u.core := by
  induction steps with
  | refl => exact .refl _
  | tail _ step ih => exact ih.trans (Step.core step)

/-- Convertible terms have convertible cores. -/
theorem Conv.core {t u : Term} (conv : Conv t u) : Conv t.core u.core := by
  obtain ⟨w, left, right⟩ := conv
  exact (Steps.core left).trans (Steps.core right).symm

end BoxCalculus
