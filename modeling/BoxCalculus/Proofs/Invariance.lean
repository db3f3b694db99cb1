import BoxCalculus.Proofs.Inhabitation
import BoxCalculus.Proofs.SubjectReduction

/-!
# Rewriting keeps types without annotations

A rule that applies anywhere in a term keeps the types that the term has when annotations are not looked
at (`Inhabits.steps`). Nothing restricts the duplications here: types see the cores of terms, and moving
a duplication outward does not change the core.
-/

namespace BoxCalculus

variable {Γ Δ : Scope} {t u T : Term}

/-- The arguments of an application chain are passed to its head. -/
theorem Inhabits.apply_iff {head : Term} {args : List (Bool × Term)} :
    Inhabits Γ (head.apply args) T ↔ ∃ F, Inhabits Γ head F ∧
      Passes (fun arg A => Inhabits Γ arg.2 A) (fun arg => Γ.value arg.2) F args T := by
  induction args generalizing head with
  | nil =>
      exact ⟨fun inhabits => ⟨T, inhabits, .refl T⟩, fun ⟨F, inhabits, conv⟩ => inhabits.conv conv⟩
  | cons arg args ih =>
      obtain ⟨erased, arg⟩ := arg
      refine (@ih (.app erased head arg)).trans ⟨?_, ?_⟩
      · rintro ⟨F, inhabits, passes⟩
        cases inhabits with
        | app fn arg same => exact ⟨_, fn, _, _, .refl _, arg, passes.conv same⟩
      · rintro ⟨F, inhabits, dom, cod, fn, arg, passes⟩
        exact ⟨_, .app (inhabits.conv fn) arg (.refl _), passes⟩

/-- Two binders whose variables are replaced by cores. -/
theorem Scope.bind_components (Γ : Scope) (A B v w : Term) :
    ((Γ.bind A).bind B).inst (Assign.components v w) =
      (Γ.put v A).put w (B.inst (Assign.close v)) := by
  have twice : ∀ Δ : Scope, Δ.inst (Assign.components v w) =
      (Δ.inst (Assign.close (w.inst (Assign.raise 1)))).inst (Assign.close v) := fun Δ => by
    simp [Scope.inst, Function.comp_def, Term.inst_close_close]
  rw [twice, Scope.bind_close, Scope.put_inst, Scope.bind_close, Term.inst_raise_close]

/-- Splitting a pair keeps types. -/
theorem Inhabits.components {A B body fst snd : Term}
    (inhabits : Inhabits ((Γ.bind A).bind B) body T) (fsts : Inhabits Γ fst A)
    (snds : Inhabits Γ snd (B.inst (Assign.close (Γ.value fst)))) :
    Inhabits Γ (body.inst (Assign.components fst snd))
      (T.inst (Assign.components (Γ.value fst) (Γ.value snd))) := by
  have seen := inhabits.inst (Assign.components (Γ.value fst) (Γ.value snd))
  rw [Scope.bind_components] at seen
  refine seen.subst Scope.Substitutes.replaces ⟨fun i => ?_, fun {i C} found => ?_⟩
  · match i with
    | 0 | 1 => exact .refl _
    | i + 2 =>
        rw [Assign.components, Scope.value_var]
        exact .refl _
  · match i with
    | 0 =>
        cases found
        exact snds
    | 1 =>
        cases found
        exact fsts
    | i + 2 => exact .var i found (.refl _)

/-- Choosing the branch of a constructor keeps types. -/
theorem Inhabits.select {label : String} {D type motive branch : Term} {ctrs branches : Entries}
    {args indices : List (Bool × Term)}
    (value : Inhabits Γ ((Term.ctr label D).apply args) ((Term.data "" type ctrs).apply indices))
    (proper : ctrs.Proper) (labels : branches.labels = ctrs.labels)
    (inhabits : ∀ entry ∈ branches.toList.zip ctrs.toList, Inhabits Γ entry.1.2
      (branchType .exact (entry.2.2.inst (Assign.close (.data "" type ctrs))) motive
        (.ctr entry.2.1 .hole)))
    (found : branches.find? label = some branch) :
    Inhabits Γ (branch.apply args)
      (motive.inst (Assign.close (Γ.value ((Term.ctr label D).apply args)))) := by
  obtain ⟨F, built, passes⟩ := Inhabits.apply_iff.1 value
  cases built with
  | @ctr _ _ type' _ A' ctrs' _ proper' found' form =>
      have telescope := proper'.find? found'
      have constructs : Constructs (A'.inst (Assign.close (.data "" type' ctrs'))) :=
        telescope.constructs ⟨_, _, Assign.close_zero _⟩
      have passes' := passes.conv form
      -- The value was built for a declaration that is convertible to the one it is taken apart with.
      have decls := telescope.passes (Assign.close_zero _) passes'
      obtain ⟨A, found_A, types⟩ := decls.data_inj.2.find? found'
      obtain ⟨_, found_A', mem⟩ := Entries.find?_zip labels found
      cases found_A'.symm.trans found_A
      have branch_conv := branchType_conv (proper.constructs (List.of_mem_zip mem).2) constructs
        (types.close decls).symm (.refl motive) (.refl (.ctr label .hole))
      have passed := (passes'.branch (fun arg conv => arg.conv conv) constructs motive
        (.ctr label .hole)).conv branch_conv
      rw [Scope.value_apply]
      exact Inhabits.apply_iff.2 ⟨_, inhabits _ mem, passed⟩

/-- The rules other than those that move duplications keep types. -/
theorem Inhabits.computes (inhabits : Inhabits Γ t T) (computes : Computes .empty t u) :
    Inhabits Γ u T := by
  cases computes with
  | beta erased erased' name dom body arg =>
      cases inhabits with
      | app fn arg_typed same =>
          cases fn with
          | lam body_typed form =>
              obtain ⟨doms, cods⟩ := form.pi_inj
              have seen := body_typed.inst (Assign.close (Γ.value arg))
              rw [Scope.bind_close] at seen
              exact (seen.close (arg_typed.conv doms.symm)).conv
                ((cods.close (.refl _)).trans same)
  | unpair =>
      cases inhabits with
      | split scrutinee motive body same =>
          cases scrutinee with
          | pair fst snd form =>
              obtain ⟨fsts, snds⟩ := form.sigma_inj
              have split := body.components (fst.conv fsts) (snd.conv (snds.close (.refl _)))
              rw [Term.inst_paired_components] at split
              rw [Term.inst_close_close]
              exact split.conv same
  | unbox name value body =>
      cases inhabits with
      | @dup _ _ _ _ A _ boxed opened =>
          cases boxed with
          | box inner form =>
              -- A box is seen as its content.
              have seen : Inhabits (Γ.put (Γ.value value) A) body T := opened
              exact seen.close (inner.conv form.boxType_inj)
  | select type label ctrType args name motive branches branch found =>
      cases inhabits with
      | caseOf proper labels value motive branches same =>
          exact (value.select proper labels branches found).conv same
  | unfold name t found => cases found

/-- What a form looks at can be replaced by something that is seen as it is, in a scope to which the
variables of the form are moved. -/
theorem Inhabits.refill {E : Frame} {v : Term} (inhabits : Inhabits Γ (E.fill v) T) :
    ∃ U, Inhabits Γ v U ∧ ∀ {Δ : Scope} {w : Term}, Δ.Renames (Assign.raise 1) Γ →
      Inhabits Δ w U → Conv (Δ.value w) (Γ.value v) → Inhabits Δ (E.lift.fill w) T := by
  have moved : ∀ {Γ Δ : Scope} {σ : Assign} {t T : Term}, Inhabits Γ t T → Δ.Renames σ Γ →
      Inhabits Δ (t.inst σ) T := fun inhabits => inhabits.subst Scope.Renames.replaces
  have seen : ∀ {Δ : Scope} (t : Term), Δ.Renames (Assign.raise 1) Γ →
      Conv (Δ.value (t.inst (Assign.raise 1))) (Γ.value t) :=
    fun t renames => Scope.value_subst (Scope.Renames.replaces.value renames) t
  have motives : ∀ {Δ : Scope} (motive : Term), Δ.Renames (Assign.raise 1) Γ →
      Conv ((motive.inst (Assign.raise 1).up).core.inst Δ.values.up)
        (motive.core.inst Γ.values.up) := fun motive renames =>
    Scope.value_subst (Scope.Renames.replaces.value (Scope.Renames.replaces.bind renames .hole)) motive
  cases E with
  | app erased arg =>
      cases inhabits with
      | app fn arg_typed same =>
          refine ⟨_, fn, fun renames w_typed _ => ?_⟩
          exact .app w_typed (moved arg_typed renames)
            (((Conv.refl _).close (seen arg renames)).trans same)
  | split erased name motive fstName sndName body =>
      cases inhabits with
      | split scrutinee motive_typed body_typed same =>
          refine ⟨_, scrutinee, fun renames w_typed conv => ?_⟩
          have under := Scope.Renames.replaces.bind renames
          exact .split w_typed (moved motive_typed (under _))
            ((moved body_typed (Scope.Renames.replaces.bind (under _) _)).conv
              ((motives motive renames).symm.inst_same _))
            (((motives motive renames).close conv).trans same)
  | caseOf type name motive branches =>
      cases inhabits with
      | caseOf proper labels value motive_typed branches_typed same =>
          refine ⟨_, value, fun renames w_typed conv => ?_⟩
          refine .caseOf proper (by simpa using labels) w_typed
            (moved motive_typed (Scope.Renames.replaces.bind renames _)) (fun entry mem => ?_)
            (((motives motive renames).close conv).trans same)
          rw [Entries.toList_map, List.zip_map_left] at mem
          obtain ⟨entry, inside, rfl⟩ := List.mem_map.1 mem
          have ctr := (List.of_mem_zip inside).2
          exact (moved (branches_typed entry inside) renames).conv
            (branchType_conv (proper.constructs ctr) (proper.constructs ctr) (.refl _)
              (motives motive renames).symm (.refl _))
  | dup name body =>
      cases inhabits with
      | dup value body_typed =>
          refine ⟨_, value, fun renames w_typed conv => ?_⟩
          exact .dup w_typed (moved body_typed (Scope.Renames.replaces.put renames conv _))

/-- Moving a duplication outward keeps types. -/
theorem Inhabits.floats (inhabits : Inhabits Γ t T) (floats : Floats t u) : Inhabits Γ u T := by
  obtain ⟨E, name, value, body⟩ := floats
  obtain ⟨U, inner, refill⟩ := inhabits.refill
  cases inner with
  | @dup _ _ _ _ A _ value_typed body_typed =>
      refine .dup value_typed (refill (Γ.renames_put _ A) body_typed ?_)
      rw [Γ.value_dup name value body A]
      exact .refl _

/-- `Keeps t u` says that `u` has all types that `t` has, and is seen as `t` is. -/
def Keeps (t u : Term) : Prop :=
  Conv t.core u.core ∧ ∀ Γ T, Inhabits Γ t T → Inhabits Γ u T

/-- A term keeps its own types. -/
theorem Keeps.refl (t : Term) : Keeps t t :=
  ⟨.refl _, fun _ _ inhabits => inhabits⟩

/-- Replacing parts of a term by ones that have their types and are seen as they are keeps the types of
the term. -/
theorem Inhabits.parts (inhabits : Inhabits Γ t T) (parted : Parted Keeps t u) : Inhabits Γ u T := by
  have seen : ∀ {p q : Term}, Conv p.core q.core → Conv (Γ.value q) (Γ.value p) :=
    fun conv => conv.symm.inst_same _
  cases inhabits with
  | var i found same =>
      obtain rfl := (Parted.leaf_iff rfl).1 parted
      exact .var i found same
  | univ same =>
      obtain rfl := (Parted.leaf_iff rfl).1 parted
      exact .univ same
  | pi dom cod same =>
      obtain ⟨_, _, ⟨-, doms⟩, ⟨-, cods⟩, rfl⟩ := Parted.pi_iff.1 parted
      exact .pi (doms _ _ dom) (cods _ _ cod) same
  | lam body same =>
      obtain ⟨_, _, -, ⟨-, bodies⟩, rfl⟩ := Parted.lam_iff.1 parted
      exact .lam (bodies _ _ body) same
  | app fn arg same =>
      obtain ⟨_, _, ⟨-, fns⟩, ⟨cores, args⟩, rfl⟩ := Parted.app_iff.1 parted
      exact .app (fns _ _ fn) (args _ _ arg) (((Conv.refl _).close (seen cores)).trans same)
  | sigma fst snd same =>
      obtain ⟨_, _, ⟨-, fsts⟩, ⟨-, snds⟩, rfl⟩ := Parted.sigma_iff.1 parted
      exact .sigma (fsts _ _ fst) (snds _ _ snd) same
  | pair fst snd same =>
      obtain ⟨_, _, _, -, ⟨cores, fsts⟩, ⟨-, snds⟩, rfl⟩ := Parted.pair_iff.1 parted
      exact .pair (fsts _ _ fst)
        ((snds _ _ snd).conv ((Conv.refl _).close (seen cores).symm)) same
  | split scrutinee motive body same =>
      obtain ⟨_, _, _, ⟨cores, values⟩, ⟨motives, motives'⟩, ⟨-, bodies⟩, rfl⟩ :=
        Parted.split_iff.1 parted
      have motive_conv := motives.symm.inst_same Γ.values.up
      exact .split (values _ _ scrutinee) (motives' _ _ motive)
        ((bodies _ _ body).conv (motive_conv.symm.inst_same _))
        ((motive_conv.close (seen cores)).trans same)
  | data arity same =>
      obtain ⟨_, _, -, -, rfl⟩ := Parted.data_iff.1 parted
      exact .data arity same
  | ctr label proper found same =>
      obtain ⟨_, -, rfl⟩ := Parted.ctr_iff.1 parted
      exact .ctr label proper found same
  | caseOf proper labels value motive branches same =>
      obtain ⟨_, _, _, _, -, ⟨cores, values⟩, ⟨motives, motives'⟩, related, rfl⟩ :=
        Parted.caseOf_iff.1 parted
      have motive_conv := motives.symm.inst_same Γ.values.up
      refine .caseOf proper (related.1.symm.trans labels) (values _ _ value) (motives' _ _ motive)
        (fun entry mem => ?_) ((motive_conv.close (seen cores)).trans same)
      obtain ⟨branch, inside, -, kept⟩ := related.exists_mem_zip mem
      have ctr := (List.of_mem_zip inside).2
      exact (kept _ _ (branches _ inside)).conv (branchType_conv (proper.constructs ctr)
        (proper.constructs ctr) (.refl _) motive_conv.symm (.refl _))
  | dup value body =>
      obtain ⟨_, _, ⟨cores, values⟩, ⟨-, bodies⟩, rfl⟩ := Parted.dup_iff.1 parted
      exact .dup (values _ _ value) ((bodies _ _ body).put_conv (seen cores).symm)
  | box value same =>
      obtain ⟨_, ⟨-, values⟩, rfl⟩ := Parted.box_iff.1 parted
      exact .box (values _ _ value) same
  | boxType type same =>
      obtain ⟨_, ⟨-, types⟩, rfl⟩ := Parted.boxType_iff.1 parted
      exact .boxType (types _ _ type) same

/-- One application of a rule, anywhere in a term, keeps its types. -/
theorem Inhabits.step (inhabits : Inhabits Γ t T) (step : Step .exact .empty t u) :
    Inhabits Γ u T := by
  induction t using Term.byParts generalizing u Γ T with
  | step t ih =>
      rcases step.root_or_parts with contracts | parts
      · rcases contracts_exact_iff.1 contracts with computes | floats
        · exact inhabits.computes computes
        · exact inhabits.floats floats
      · refine inhabits.parts (parts.imp fun part mem p step => ?_)
        cases step with
        | refl => exact .refl _
        | single step => exact ⟨Step.core step, fun _ _ inhabits => ih part mem inhabits step⟩

/-- Rewriting keeps types. -/
theorem Inhabits.steps (inhabits : Inhabits Γ t T) (steps : Steps .exact .empty t u) :
    Inhabits Γ u T := by
  induction steps with
  | refl => exact inhabits
  | tail _ step ih => exact ih.step step

end BoxCalculus
