import BoxCalculus.Proofs.Cosmetics
import BoxCalculus.Proofs.Runs
import BoxCalculus.Proofs.Shape
import BoxCalculus.Proofs.Typing

/-!
# Reduction keeps types

The rules that compute keep the types of a term to which they are applied (`Typed.computes`).

A duplication that moves outward keeps the types of the term if it is normal (`Typed.floats_out`): its
value is then not convertible to a box, so the type of its body does not depend on what it binds. The
reducer applies the rule only to such duplications, because it reduces what a form looks at before the
form. Around a split or a case analysis the motive must not depend on the scrutinee either. So the
reducer keeps the types of a term if duplications move freely in all that the term rewrites to
(`Run.preserves`).
-/

namespace BoxCalculus

variable {Γ Δ : List Term} {t u T U : Term}

/-- An argument of an application without a mark has a type. -/
def TypedArg (Γ : List Term) (arg : Bool × Term) (A : Term) : Prop :=
  arg.1 = false ∧ Typed Γ arg.2 A

/-- The arguments of an application chain are passed to its head. -/
theorem Typed.apply_iff {head : Term} {args : List (Bool × Term)} :
    Typed Γ (head.apply args) T ↔
      ∃ F, Typed Γ head F ∧ Passes (TypedArg Γ) Prod.snd F args T := by
  induction args generalizing head with
  | nil => exact ⟨fun typed => ⟨T, typed, .refl T⟩, fun ⟨F, typed, conv⟩ => typed.conv conv⟩
  | cons arg args ih =>
      obtain ⟨erased, arg⟩ := arg
      refine (@ih (.app erased head arg)).trans ⟨?_, ?_⟩
      · rintro ⟨F, typed, passes⟩
        cases typed with
        | app fn arg same => exact ⟨_, fn, _, _, .refl _, ⟨rfl, arg⟩, passes.conv same⟩
      · rintro ⟨F, typed, dom, cod, fn, ⟨rfl, arg⟩, passes⟩
        exact ⟨_, .app (typed.conv fn) arg (.refl _), passes⟩

/-- The entries of two lists with the same labels that are found under a label stand together. -/
theorem Entries.find?_zip {label : String} {term : Term} : ∀ {entries others : Entries},
    entries.labels = others.labels → entries.find? label = some term →
    ∃ other, others.find? label = some other ∧
      ((label, term), (label, other)) ∈ entries.toList.zip others.toList
  | .nil, _, _, found => by cases found
  | .cons first this rest, .nil, labels, _ => by cases labels
  | .cons first this rest, .cons first' this' rest', labels, found => by
      simp only [Entries.labels, List.cons.injEq] at labels
      obtain ⟨rfl, labels⟩ := labels
      rw [Entries.find?] at found
      by_cases same : first = label
      · rw [if_pos same] at found
        cases found
        subst same
        exact ⟨this', by simp [Entries.find?], by simp [Entries.toList]⟩
      · rw [if_neg same] at found
        obtain ⟨other, found', mem⟩ := Entries.find?_zip labels found
        exact ⟨other, by simp [Entries.find?, same, found'], List.mem_cons_of_mem _ mem⟩

/-- Put two terms in place of the two innermost variables. -/
def Assign.components (fst snd : Term) : Assign
  | 0 => snd
  | 1 => fst
  | i + 2 => .var (i : Nat)

/-- Closing two binders one after the other puts in both components. -/
theorem Term.inst_close_close (t fst snd : Term) :
    (t.inst (Assign.close (snd.inst (Assign.raise 1)))).inst (Assign.close fst) =
      t.inst (Assign.components fst snd) := by
  rw [Term.inst_inst]
  congr 1
  funext i
  match i with
  | 0 => exact Term.inst_raise_close snd fst
  | 1 => exact Term.inst_var 0 _
  | i + 2 => exact Term.inst_var (i + 1) _

/-- The motive at the pair of the two innermost variables, when these are replaced by components. -/
theorem Term.inst_paired_components (motive type fst snd : Term) :
    (motive.inst (Assign.paired type)).inst (Assign.components fst snd) =
      motive.inst (Assign.close (.pair false type fst snd)) := by
  have room : (fun i => (Assign.raise 2 i).inst (Assign.components fst snd)) =
      fun i : Nat => .var i := funext fun i => Term.inst_var (i + 2) _
  have first : (Term.var 1).inst (Assign.components fst snd) = fst := Term.inst_var 1 _
  have second : (Term.var 0).inst (Assign.components fst snd) = snd := Term.inst_var 0 _
  rw [Term.inst_inst]
  congr 1
  funext i
  cases i with
  | zero =>
      rw [Assign.paired, Term.inst_pair, Term.inst_inst, room, Term.inst_self, first, second]
      rfl
  | succ i => exact Term.inst_var (i + 2) _

/-- Splitting a pair keeps types. -/
theorem Typed.components {A B body fst snd : Term} (typed : Typed (B :: A :: Γ) body T)
    (fst_typed : Typed Γ fst A) (snd_typed : Typed Γ snd (B.inst (Assign.close fst))) :
    Typed Γ (body.inst (Assign.components fst snd)) (T.inst (Assign.components fst snd)) := by
  have below : ∀ C : Term, (C.inst (Assign.raise 1)).inst (Assign.components fst snd) =
      C.inst (Assign.close fst) := by
    intro C
    rw [← Term.inst_close_close, Term.inst_raise_close]
  refine typed.inst Substitutes.admissible fun i C found => ?_
  match i with
  | 0 =>
      cases found
      rw [below]
      exact snd_typed
  | 1 =>
      cases found
      rw [← Term.inst_raise_raise A 1 1, below, Term.inst_raise_close]
      exact fst_typed
  | i + 2 =>
      rw [← Term.inst_raise_raise C (i + 2) 1, below, ← Term.inst_raise_raise C (i + 1) 1,
        Term.inst_raise_close]
      exact .var i found (.refl _)

/-- Choosing the branch of a constructor keeps types. -/
theorem Typed.select {label : String} {D type motive branch : Term} {ctrs branches : Entries}
    {args indices : List (Bool × Term)}
    (value : Typed Γ ((Term.ctr label D).apply args) ((Term.data "" type ctrs).apply indices))
    (proper : ctrs.Proper) (labels : branches.labels = ctrs.labels)
    (typed : ∀ entry ∈ branches.toList.zip ctrs.toList, Typed Γ entry.1.2
      (branchType .exact (entry.2.2.inst (Assign.close (.data "" type ctrs))) motive
        (.ctr entry.2.1 (.data "" type ctrs))))
    (found : branches.find? label = some branch) :
    Typed Γ (branch.apply args)
      (motive.inst (Assign.close ((Term.ctr label D).apply args))) := by
  obtain ⟨F, built, passes⟩ := Typed.apply_iff.1 value
  cases built with
  | @ctr _ _ type' ctrs' A' _ _ declared proper' found' form =>
      have telescope := proper'.find? found'
      have constructs : Constructs (A'.inst (Assign.close (.data "" type' ctrs'))) :=
        telescope.constructs ⟨_, _, Assign.close_zero _⟩
      have passes' := passes.conv form
      -- The value was built for a declaration that is convertible to the one it is taken apart with.
      have decls := telescope.passes (Assign.close_zero _) passes'
      obtain ⟨A, found_A, types⟩ := decls.data_inj.2.find? found'
      obtain ⟨_, found_A', mem⟩ := Entries.find?_zip labels found
      cases found_A'.symm.trans found_A
      have ctrs_conv : Conv (.ctr label (.data "" type ctrs)) (.ctr label D) :=
        .of_parts (Parted.ctr_iff.2 ⟨_, decls.symm.trans declared.symm, rfl⟩)
      have branch_conv := branchType_conv (proper.constructs (List.of_mem_zip mem).2) constructs
        (types.close decls).symm (.refl motive) ctrs_conv
      have passed := (passes'.branch (fun typed conv => ⟨typed.1, typed.2.conv conv⟩) constructs
        motive (.ctr label D)).conv branch_conv
      have unmarked : args.map (fun arg => (false, arg.2)) = args := by
        conv_rhs => rw [← List.map_id args]
        refine List.map_congr_left fun arg mem => ?_
        obtain ⟨A, mark, -⟩ := passes.forall_mem arg mem
        rw [← mark, id]
      rw [unmarked] at passed
      exact Typed.apply_iff.2 ⟨_, typed _ mem, passed⟩

/-- The rules other than those that move duplications keep types. -/
theorem Typed.computes (typed : Typed Γ t T) (computes : Computes .empty t u) :
    Typed Γ u T := by
  cases computes with
  | beta erased erased' name dom body arg =>
      cases typed with
      | app fn arg same =>
          cases fn with
          | lam body form =>
              obtain ⟨doms, cods⟩ := form.pi_inj
              exact (body.close (arg.conv doms.symm)).conv ((cods.close (.refl _)).trans same)
  | unpair erased erased' type fst snd name motive fstName sndName body =>
      cases typed with
      | split scrutinee motive body same =>
          cases scrutinee with
          | pair form fst snd form' =>
              obtain ⟨fsts, snds⟩ := (form.symm.trans form').sigma_inj
              have split := body.components (fst.conv fsts)
                (snd.conv (snds.close (.refl _)))
              rw [Term.inst_paired_components] at split
              rw [Term.inst_close_close]
              refine split.conv (Conv.trans ((Conv.refl _).close ?_) same)
              exact .of_parts (Parted.pair_iff.2 ⟨_, _, _, form'.symm, .refl _, .refl _, rfl⟩)
  | unbox name value body =>
      cases typed with
      | unbox value body box same =>
          cases value with
          | box value form =>
              exact (body.close (value.conv form.boxType_inj)).conv
                (((Conv.refl _).close box.box_inj).trans same)
      | float value body =>
          cases value with
          | box value form =>
              have closed := body.close (value.conv form.boxType_inj)
              rwa [Term.inst_raise_close] at closed
  | select D label D' args name motive branches branch found =>
      cases typed with
      | caseOf declared proper labels value motive branches same =>
          exact (value.select proper labels branches found).conv same
  | unfold name t found => cases found

/-- What does not depend on a variable is the same whatever is put in for it. -/
theorem Independent.close {motive : Term} (independent : Independent motive) (v w : Term) :
    Conv (motive.inst (Assign.close v)) (motive.inst (Assign.close w)) := by
  obtain ⟨u, conv⟩ := independent
  have left := conv.close (.refl v)
  have right := conv.close (.refl w)
  rw [Term.inst_raise_close] at left right
  exact left.trans right.symm

/-- The value of a normal duplication is not convertible to a box. -/
theorem Normal.not_opens {name : String} {value body : Term}
    (normal : Normal .exact .empty (.dup name value body)) (u : Term) : ¬ Conv value (.box u) := by
  intro box
  obtain ⟨none, parts⟩ := normal_iff.1 normal
  obtain ⟨value', -, rfl⟩ :=
    Parted.box_iff.1 (box.normal_parts (parts (0, value) List.mem_cons_self) rfl).1
  cases none

/-- A normal duplication does not open a box, so it is typed as one that moves. -/
theorem Typed.dup_of_normal {name : String} {value body : Term}
    (typed : Typed Γ (.dup name value body) T)
    (normal : Normal .exact .empty (.dup name value body)) :
    name = "" ∧ ∃ content, Typed Γ value (.boxType content) ∧
      Typed (content :: Γ) body (T.inst (Assign.raise 1)) := by
  cases typed with
  | unbox _ _ box _ => exact absurd box (normal.not_opens _)
  | float value body => exact ⟨rfl, _, value, body⟩

/-- The motive of a split or a case analysis does not depend on the scrutinee. -/
def Frame.Free : Frame → Prop
  | .split _ _ motive _ _ _ | .caseOf _ _ motive _ => Independent motive
  | _ => True

/-- What a form looks at can be replaced, if the type of the form does not depend on it: the form is no
duplication of a box, and no motive depends on the scrutinee. -/
theorem Typed.refill {E : Frame} {v : Term} (typed : Typed Γ (E.fill v) T) (free : E.Free)
    (stuck : ∀ u, ¬ Conv v (.box u)) :
    ∃ U, Typed Γ v U ∧ ∀ A w, Typed (A :: Γ) w (U.inst (Assign.raise 1)) →
      Typed (A :: Γ) (E.lift.fill w) (T.inst (Assign.raise 1)) := by
  have room : ∀ A, Renames (A :: Γ) (Assign.raise 1) Γ := fun A i B found =>
    ⟨i + 1, B, rfl, found, (Term.inst_raise_raise B (i + 1) 1).symm⟩
  cases E with
  | app erased arg =>
      cases typed with
      | app fn arg same =>
          refine ⟨_, fn, fun A w typed => ?_⟩
          have conv := same.raise
          rw [Term.inst_close_inst] at conv
          rw [Term.inst_pi] at typed
          exact .app typed (arg.weaken A) conv
  | split erased name motive fstName sndName body =>
      cases typed with
      | split scrutinee motive_typed body same =>
          refine ⟨_, scrutinee, fun A w typed => ?_⟩
          have under := Renames.admissible.up (room A)
          have motive' := motive_typed.inst Renames.admissible (under _)
          have body' := body.inst Renames.admissible (Renames.admissible.up (under _) _)
          have conv := same.raise
          rw [Term.inst_close_inst] at conv
          rw [Assign.inst_paired, Term.inst_sigma] at body'
          rw [Term.inst_sigma] at typed motive'
          exact .split typed motive' body' (((free.inst _).close w _).trans conv)
  | caseOf type name motive branches =>
      cases typed with
      | caseOf declared proper labels value motive_typed branches_typed same =>
          refine ⟨_, value, fun A w typed => ?_⟩
          have motive' := motive_typed.inst Renames.admissible (Renames.admissible.up (room A) _)
          have declared' := declared.raise
          have conv := same.raise
          rw [Term.inst_close_inst] at conv
          rw [Term.inst_data] at declared'
          rw [Term.inst_apply, Term.inst_data] at typed motive'
          refine .caseOf declared' (proper.inst _) (by simpa using labels) typed motive' ?_
            (((free.inst _).close w _).trans conv)
          intro entry mem
          rw [Entries.toList_map, Entries.toList_map, List.zip_map] at mem
          obtain ⟨entry, inside, rfl⟩ := List.mem_map.1 mem
          have branch := (branches_typed entry inside).weaken A
          rwa [branchType_inst (proper.constructs (List.of_mem_zip inside).2),
            Term.inst_close_inst, Term.inst_ctr, Term.inst_data] at branch
  | dup name body =>
      cases typed with
      | unbox value body box same => exact absurd box (stuck _)
      | float value body =>
          refine ⟨_, value, fun A w typed => ?_⟩
          have body' := body.inst Renames.admissible (Renames.admissible.up (room A) _)
          rw [Term.inst_raise_up] at body'
          exact .float typed body'

/-- A normal duplication that moves outward keeps types, if no motive depends on it. -/
theorem Typed.floats_out {E : Frame} {name : String} {value body : Term}
    (typed : Typed Γ (E.fill (.dup name value body)) T) (free : E.Free)
    (normal : Normal .exact .empty (.dup name value body)) :
    Typed Γ (.dup name value (E.lift.fill body)) T := by
  obtain ⟨U, inner, refill⟩ := typed.refill free fun u box =>
    Bool.false_ne_true (box.normal_parts normal rfl).2
  obtain ⟨rfl, content, value, body⟩ := inner.dup_of_normal normal
  exact .float value (refill content _ body)

/-- `Preserves t u` says that `t` rewrites to `u`, which has all types that `t` has. -/
def Preserves (t u : Term) : Prop :=
  Steps .exact .empty t u ∧ ∀ Γ T, Typed Γ t T → Typed Γ u T

/-- The innermost variable may have any type convertible to its type. -/
theorem Typed.context_cons {A A' : Term} (typed : Typed (A :: Γ) t T) (conv : Conv A A') :
    Typed (A' :: Γ) t T :=
  typed.context (.cons conv.symm (List.forall₂_same.2 fun _ _ => .refl _))

/-- Entries that are paired with others can be replaced by related ones. -/
theorem Entries.Related.exists_mem_zip {R : Term → Term → Prop} {pair : _ × (String × Term)} :
    ∀ {entries entries' : Entries} {others : List (String × Term)}, entries.Related R entries' →
      pair ∈ entries'.toList.zip others →
      ∃ term, ((pair.1.1, term), pair.2) ∈ entries.toList.zip others ∧ R term pair.1.2
  | _, .nil, _, _, mem => by cases mem
  | _, .cons .., [], _, mem => by cases mem
  | .nil, .cons .., _ :: _, related, _ => by cases related.1
  | .cons label term rest, .cons label' term' rest', other :: others, related, mem => by
      obtain ⟨labels, terms⟩ := related
      simp only [Entries.labels, List.cons.injEq] at labels
      simp only [Entries.terms_cons, List.forall₂_cons] at terms
      rcases List.mem_cons.1 mem with rfl | mem
      · exact ⟨term, by simp [Entries.toList, labels.1], terms.1⟩
      · obtain ⟨term, mem, related⟩ :=
          Entries.Related.exists_mem_zip ⟨labels.2, terms.2⟩ mem
        exact ⟨term, List.mem_cons_of_mem _ mem, related⟩

/-- Rewriting parts of a term that keep their types keeps the types of the term. -/
theorem Typed.parts (typed : Typed Γ t T) (parted : Parted Preserves t u) : Typed Γ u T := by
  cases typed with
  | var i found same =>
      obtain rfl := (Parted.leaf_iff rfl).1 parted
      exact .var i found same
  | univ same =>
      obtain rfl := (Parted.leaf_iff rfl).1 parted
      exact .univ same
  | pi dom cod same =>
      obtain ⟨_, _, ⟨doms, dom_typed⟩, ⟨-, cod_typed⟩, rfl⟩ := Parted.pi_iff.1 parted
      exact .pi (dom_typed _ _ dom) ((cod_typed _ _ cod).context_cons (.of_steps doms)) same
  | lam body same =>
      obtain ⟨_, _, ⟨doms, -⟩, ⟨-, body_typed⟩, rfl⟩ := Parted.lam_iff.1 parted
      refine .lam ((body_typed _ _ body).context_cons (.of_steps doms)) (Conv.trans ?_ same)
      exact .of_parts (Parted.pi_iff.2 ⟨_, _, (Conv.of_steps doms).symm, .refl _, rfl⟩)
  | app fn arg same =>
      obtain ⟨_, _, ⟨-, fn_typed⟩, ⟨args, arg_typed⟩, rfl⟩ := Parted.app_iff.1 parted
      exact .app (fn_typed _ _ fn) (arg_typed _ _ arg)
        (((Conv.refl _).close (Conv.of_steps args).symm).trans same)
  | sigma fst snd same =>
      obtain ⟨_, _, ⟨fsts, fst_typed⟩, ⟨-, snd_typed⟩, rfl⟩ := Parted.sigma_iff.1 parted
      exact .sigma (fst_typed _ _ fst) ((snd_typed _ _ snd).context_cons (.of_steps fsts)) same
  | pair type fst snd same =>
      obtain ⟨_, _, _, ⟨types, -⟩, ⟨fsts, fst_typed⟩, ⟨-, snd_typed⟩, rfl⟩ := Parted.pair_iff.1 parted
      have types := (Conv.of_steps types).symm
      exact .pair (types.trans type) (fst_typed _ _ fst)
        ((snd_typed _ _ snd).conv ((Conv.refl _).close (.of_steps fsts))) (types.trans same)
  | split scrutinee motive body same =>
      obtain ⟨_, _, _, ⟨values, value_typed⟩, ⟨motives, motive_typed⟩, ⟨-, body_typed⟩, rfl⟩ :=
        Parted.split_iff.1 parted
      have values := Conv.of_steps values
      have motives := Conv.of_steps motives
      exact .split (value_typed _ _ scrutinee) (motive_typed _ _ motive)
        ((body_typed _ _ body).conv (motives.inst_same _)) ((motives.close values).symm.trans same)
  | data same =>
      obtain ⟨_, _, ⟨types, -⟩, -, rfl⟩ := Parted.data_iff.1 parted
      exact .data ((Conv.of_steps types).symm.trans same)
  | ctr label declared proper found same =>
      obtain ⟨_, ⟨decls, -⟩, rfl⟩ := Parted.ctr_iff.1 parted
      exact .ctr label ((Conv.of_steps decls).symm.trans declared) proper found same
  | caseOf declared proper labels value motive branches same =>
      obtain ⟨_, _, _, _, ⟨decls, -⟩, ⟨values, value_typed⟩, ⟨motives, motive_typed⟩, related, rfl⟩ :=
        Parted.caseOf_iff.1 parted
      have values := Conv.of_steps values
      have motives := Conv.of_steps motives
      refine .caseOf ((Conv.of_steps decls).symm.trans declared) proper
        (related.1.symm.trans labels) (value_typed _ _ value) (motive_typed _ _ motive) ?_
        ((motives.close values).symm.trans same)
      intro entry mem
      obtain ⟨branch, inside, -, branch_typed⟩ := related.exists_mem_zip mem
      have ctr := (List.of_mem_zip inside).2
      exact (branch_typed _ _ (branches _ inside)).conv (branchType_conv (proper.constructs ctr)
        (proper.constructs ctr) (.refl _) motives (.refl _))
  | unbox value body box same =>
      obtain ⟨_, _, ⟨values, value_typed⟩, ⟨-, body_typed⟩, rfl⟩ := Parted.dup_iff.1 parted
      exact .unbox (value_typed _ _ value) (body_typed _ _ body)
        ((Conv.of_steps values).symm.trans box) same
  | float value body =>
      obtain ⟨_, _, ⟨-, value_typed⟩, ⟨-, body_typed⟩, rfl⟩ := Parted.dup_iff.1 parted
      exact .float (value_typed _ _ value) (body_typed _ _ body)
  | box value same =>
      obtain ⟨_, ⟨-, value_typed⟩, rfl⟩ := Parted.box_iff.1 parted
      exact .box (value_typed _ _ value) same
  | boxType type same =>
      obtain ⟨_, ⟨-, type_typed⟩, rfl⟩ := Parted.boxType_iff.1 parted
      exact .boxType (type_typed _ _ type) same

namespace Preserves

/-- A term preserves its own types. -/
theorem refl (t : Term) : Preserves t t :=
  ⟨.refl, fun _ _ typed => typed⟩

/-- Types that are preserved one step after the other are preserved. -/
theorem trans {v : Term} (first : Preserves t u) (second : Preserves u v) :
    Preserves t v :=
  ⟨first.1.trans second.1, fun Γ T typed => second.2 Γ T (first.2 Γ T typed)⟩

/-- Types are preserved if they are in each part. -/
theorem of_parts (parted : Parted Preserves t u) : Preserves t u :=
  ⟨parts_steps (parted.imp fun _ _ _ preserves => preserves.1), fun _ _ typed => typed.parts parted⟩

end Preserves

/-- What a form looks at is one of the parts that are reduced before a rule is looked for. -/
theorem Frame.mem_early {E : Frame} {v : Term} {ps : List Term} (same : ps.length = t.early.length)
    (fills : t.withParts (ps ++ t.late.map Prod.snd) = E.fill v) : v ∈ ps := by
  cases t with
  | app =>
      obtain ⟨fn, arg, rfl⟩ := List.length_eq_two.1 same
      cases E <;> simp_all [Term.late, Frame.fill]
  | split =>
      obtain ⟨scrutinee, motive, body, rfl⟩ := List.length_eq_three.1 same
      cases E <;> simp_all [Term.late, Frame.fill]
  | dup =>
      obtain ⟨value, rfl⟩ := List.length_eq_one_iff.1 same
      cases E <;> simp_all [Term.late, Frame.fill]
  | caseOf =>
      obtain _ | ⟨type, _ | ⟨value, _ | ⟨motive, terms⟩⟩⟩ := ps
      · cases same
      · cases same
      · cases same
      · cases E <;> simp_all [Term.late, Frame.fill]
  | hole | var | univ | ref | data => cases E <;> cases fills
  | ctr | box | boxType =>
      obtain ⟨a, rfl⟩ := List.length_eq_one_iff.1 same
      cases E <;> cases fills
  | pi | lam | sigma =>
      obtain ⟨a, b, rfl⟩ := List.length_eq_two.1 same
      cases E <;> cases fills
  | pair =>
      obtain ⟨a, b, c, rfl⟩ := List.length_eq_three.1 same
      cases E <;> cases fills

/-- If the term is a split or a case analysis of a duplication, then the duplication opens a value that
is convertible to a box, or the motive does not depend on it. -/
def Term.MovesFreely : Term → Prop
  | .split _ (.dup _ value _) _ motive _ _ _ | .caseOf _ (.dup _ value _) _ motive _ =>
      (∃ u, Conv value (.box u)) ∨ Independent motive
  | _ => True

/-- A normal duplication that a form looks at moves outward freely. -/
theorem Frame.free_of_movesFreely {E : Frame} {name : String} {value body : Term}
    (normal : Normal .exact .empty (.dup name value body))
    (moves : (E.fill (.dup name value body)).MovesFreely) : E.Free := by
  have shut : ¬ ∃ u, Conv value (.box u) := fun ⟨u, box⟩ => normal.not_opens u box
  cases E with
  | app | dup => trivial
  | split | caseOf => exact moves.resolve_left shut

/-- Duplications move freely in all that the term rewrites to. -/
def Term.Unobstructed (t : Term) : Prop :=
  ∀ u, Steps .exact .empty t u → u.Everywhere Term.MovesFreely

namespace Term.Unobstructed

/-- Duplications move freely in what the term rewrites to. -/
theorem steps (free : t.Unobstructed) (steps : Steps .exact .empty t u) : u.Unobstructed :=
  fun v further => free v (steps.trans further)

/-- Duplications move freely in the parts of the term. -/
theorem part (free : t.Unobstructed) {part : Nat × Term} (mem : part ∈ t.parts) :
    part.2.Unobstructed := by
  intro v steps
  obtain ⟨u, whole, inside⟩ := steps_part mem steps
  exact (free u whole).part inside

/-- Duplications move freely in what the reducer reduces first and last. -/
theorem jobs (free : t.Unobstructed) :
    (∀ job ∈ t.early, job.2.Unobstructed) ∧ ∀ job ∈ t.late, job.2.Unobstructed :=
  forall_jobs Unobstructed fun _ mem => free.part mem

end Term.Unobstructed

/-- The reducer keeps types, if duplications move freely. -/
theorem Run.preserves {jobs : List (Bool × Term)} {m m' : Meter} {us : List Term}
    (run : Run .exact .empty jobs m us m') (going : m'.stopped = none)
    (free : ∀ job ∈ jobs, job.2.Unobstructed) :
    List.Forall₂ (fun job u => Preserves job.2 u) jobs us := by
  induction run with
  | nil => exact .nil
  | cons job jobs m u m₁ us m₂ first rest ih ih' =>
      obtain ⟨here, others⟩ := List.forall_mem_cons.1 free
      have one := ih (rest.running going) (List.forall_mem_singleton.2 here)
      exact .cons (by simpa using one) (ih' going others)
  | need t m u m₁ _ ih => simpa using ih going (by simpa using free)
  | stay t m ps m₁ qs m₂ early none late ih ih' =>
      have parts := (List.forall_mem_singleton.1 free).jobs
      exact .cons (.of_parts (.of_jobs (ih (late.running going) parts.1) (ih' going parts.2))) .nil
  | refused t m ps m₁ c m₂ qs m₃ _ _ fire late ih ih' =>
      have stopped := Meter.stopped_of_refused fire
      rw [late.running going] at stopped
      cases stopped
  | fired t m ps m₁ c m₂ u m₃ early some fire run ih ih' =>
      have before := Meter.running_of_granted fire
      have whole := List.forall_mem_singleton.1 free
      have first : Preserves t (t.withParts (ps ++ t.late.map Prod.snd)) := by
        refine .of_parts (.of_jobs (ih before whole.jobs.1) ?_)
        rw [List.forall₂_map_right_iff, List.forall₂_same]
        exact fun _ _ => .refl _
      have rule : Preserves (t.withParts (ps ++ t.late.map Prod.snd)) c.term := by
        have contracts : Contracts .exact .empty _ c.term := ⟨c, some, rfl⟩
        refine ⟨.single (.root _ _ contracts), fun Γ T typed => ?_⟩
        rcases contracts_exact_iff.1 contracts with computes | floats
        · exact typed.computes computes
        · have moves := (whole _ first.1).here
          generalize form : t.withParts (ps ++ t.late.map Prod.snd) = filled at floats typed moves
          generalize c.term = moved at floats
          cases floats with
          | out E name value body =>
              have normal := early.normal before _ (Frame.mem_early early.length_eq form)
              exact typed.floats_out (Frame.free_of_movesFreely normal moves) normal
      have moved := whole.steps (first.trans rule).1
      have inside : c.inner.Unobstructed := by
        cases c with
        | plain => exact moved
        | under => exact moved.part (.tail _ (.head _))
      have inner : Preserves c.inner u := by
        simpa using ih' going (List.forall_mem_singleton.2 inside)
      refine .cons ((first.trans rule).trans ?_) .nil
      rw [← c.around_inner]
      cases c with
      | plain => exact inner
      | under name value body =>
          exact .of_parts (Parted.dup_iff.2 ⟨_, _, .refl _, inner, rfl⟩)

end BoxCalculus
