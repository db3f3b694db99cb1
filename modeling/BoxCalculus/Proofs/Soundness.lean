import BoxCalculus.Proofs.Acceptance

/-!
# What the checker accepts is typed

To judge a term in a context, the checker judges parts of it, each in a context of its own
(`Visits`). It accepts more than the typing relation, but not where all that it comes upon is
`Regular`: a constructor or a case analysis belongs to a proper declaration, and a duplication opens a
value that is convertible to a box, or the type of its body does not depend on what it binds. Then the
term has the type that the checker infers (`Ensures.judge`).

`Ensures x P` says that the results of a computation of the checker have `P`.
-/

namespace BoxCalculus

/-- `Ensures x P` says that all results of `x` have `P`. -/
def Ensures (x : Checking α) (P : α → Prop) : Prop :=
  ∀ m a m', x m = .ok (a, m') → P a

/-- The term rewrites to the other one, which is normal. -/
def Reduces (t u : Term) : Prop :=
  Steps .exact .empty t u ∧ Normal .exact .empty u

/-- The checker finds the type of the term in the context, with enough fuel. -/
def Infers (ctx : Context) (t T : Term) : Prop :=
  ∃ m m', t.judge .exact .empty ctx .infer m = .ok (T, m')

/-- The parts of a term that the checker judges, with the number of the term's binders around each.
-/
def Term.judgedParts : Term → List (Nat × Term)
  | pi _ _ dom cod => [(0, dom), (1, cod)]
  | lam _ _ _ body => [(1, body)]
  | app _ fn arg => [(0, fn), (0, arg)]
  | sigma _ _ fst snd => [(0, fst), (1, snd)]
  | pair _ _ fst snd => [(0, fst), (0, snd)]
  | split _ scrutinee _ motive _ _ body => [(0, scrutinee), (1, motive), (2, body)]
  | caseOf _ value _ motive branches =>
      (0, value) :: (1, motive) :: branches.toList.map fun entry => (0, entry.2)
  | dup _ value body => [(0, value), (1, body)]
  | box value => [(0, value)]
  | boxType type => [(0, type)]
  | _ => []

/-- `Judges ctx t ctx' u` says that `u` is a part of `t`, which the checker judges in the context
`ctx'` when it judges `t` in the context `ctx`. -/
inductive Judges (ctx : Context) : Term → Context → Term → Prop where
  /-- a part below no binder -/
  | outer {t u} : (0, u) ∈ t.judgedParts → Judges ctx t ctx u
  | pi {erased name dom cod nf} : Reduces dom nf →
      Judges ctx (.pi erased name dom cod) (ctx.extend name nf) cod
  | lam {erased name dom body nf} : Reduces dom nf →
      Judges ctx (.lam erased name dom body) (ctx.extend name nf) body
  | sigma {erased name fst snd nf} : Reduces fst nf →
      Judges ctx (.sigma erased name fst snd) (ctx.extend name nf) snd
  | splitMotive {erased scrutinee name motive fstName sndName body T} : Infers ctx scrutinee T →
      Judges ctx (.split erased scrutinee name motive fstName sndName body) (ctx.extend name T) motive
  | splitBody {erased scrutinee name motive fstName sndName body mark pairName A B} :
      Infers ctx scrutinee (.sigma mark pairName A B) →
      Judges ctx (.split erased scrutinee name motive fstName sndName body)
        ((ctx.extend fstName A).extend sndName B) body
  | caseMotive {type value name motive branches T} : Infers ctx value T →
      Judges ctx (.caseOf type value name motive branches) (ctx.extend name T) motive
  | dup {name value body content} : Infers ctx value (.boxType content) →
      Judges ctx (.dup name value body) (ctx.extend name content) body

/-- `Visits ctx t ctx' u` says that the checker comes to judge `u` in the context `ctx'` when it judges
`t` in the context `ctx`. -/
inductive Visits : Context → Term → Context → Term → Prop where
  | self (ctx t) : Visits ctx t ctx t
  | inside {ctx t ctx₁ t₁ ctx₂ u} : Judges ctx t ctx₁ t₁ → Visits ctx₁ t₁ ctx₂ u →
      Visits ctx t ctx₂ u

/-- If the term is a constructor or a case analysis, then it belongs to a proper declaration. If it is
a duplication, then it opens a value that is convertible to a box, or the type that the checker finds
for its body does not depend on what it binds. -/
def Regular (ctx : Context) : Term → Prop
  | .ctr _ D | .caseOf D _ _ _ _ =>
      ∀ name type ctrs, Reduces D (.data name type ctrs) → (ctrs.strip fun _ => false).Proper
  | .dup name value body => (∃ u, Conv value.bare (.box u)) ∨
      ∀ content B, Infers ctx value (.boxType content) → Infers (ctx.extend name content) body B →
        Independent B.bare
  | _ => True

/-- All that the checker judges in the term is regular. -/
def AllRegular (ctx : Context) (t : Term) : Prop :=
  ∀ ctx' u, Visits ctx t ctx' u → Regular ctx' u

namespace AllRegular

variable {ctx ctx' : Context} {t u : Term}

/-- If all is regular, the term is. -/
theorem here (regular : AllRegular ctx t) : Regular ctx t :=
  regular ctx t (.self ctx t)

/-- If all is regular, all that is judged inside is. -/
theorem judged (regular : AllRegular ctx t) (judges : Judges ctx t ctx' u) : AllRegular ctx' u :=
  fun ctx'' v visits => regular ctx'' v (.inside judges visits)

/-- A part below no binder is judged in the context of the term. -/
theorem part (regular : AllRegular ctx t) (mem : (0, u) ∈ t.judgedParts) : AllRegular ctx u :=
  regular.judged (.outer mem)

end AllRegular

/-- The types of proper constructors are telescopes. -/
theorem Entries.Proper.telescope {ctrs : Entries} (proper : (ctrs.strip fun _ => false).Proper)
    {ctr : String × Term} (mem : ctr ∈ ctrs.toList) : Telescope 0 ctr.2.bare := by
  rw [Entries.Proper, Entries.toList_strip, List.forall_mem_map] at proper
  exact proper ctr mem

/-- Nothing is missing in the type that is asked for. -/
inductive Mode.Solid : Mode → Prop where
  | infer : Solid .infer
  | against {expected : Term} : expected.solid = true → Solid (.against expected)

/-- `Answers ctx mode t T` says that `T` is a type of `t` in normal form, and the one that is asked for. -/
structure Answers (ctx : Context) (mode : Mode) (t T : Term) : Prop where
  typed : Typed ctx.types t.bare T.bare
  represents : Represents T T.bare
  fits : mode.Fits T.bare

/-- A term that has been checked against a type has it. -/
theorem Answers.against {ctx : Context} {expected t T : Term}
    (answers : Answers ctx (.against expected) t T) : Typed ctx.types t.bare expected.bare := by
  cases answers.fits with
  | against _ conv => exact answers.typed.conv conv.symm

namespace Ensures

/-- A result with the property ensures it. -/
theorem pure {P : α → Prop} {a : α} (holds : P a) : Ensures (Pure.pure a : Checking α) P := by
  intro m a' m' out
  cases out
  exact holds

/-- A failure has no results. -/
theorem fail {P : α → Prop} (e : TypeError) : Ensures (Checking.fail e : Checking α) P := by
  intro m a m' out
  cases out

/-- A computation ensures what the rest of it does on each result of its first half. -/
theorem bind {P : α → Prop} {Q : β → Prop} {x : Checking α} {f : α → Checking β}
    (first : Ensures x P) (next : ∀ a, P a → Ensures (f a) Q) : Ensures (x >>= f) Q := by
  intro m b m' out
  obtain ⟨a, m₁, out₁, out⟩ := Checking.bind_ok out
  exact next a (first m a m₁ out₁) m₁ b m' out

/-- A weaker property is ensured, too. -/
theorem imp {P Q : α → Prop} {x : Checking α} (ensures : Ensures x P) (weaker : ∀ a, P a → Q a) :
    Ensures x Q :=
  fun m a m' out => weaker a (ensures m a m' out)

/-- A result is one that the computation gives on some meter. -/
theorem found {P : α → Prop} {x : Checking α} (ensures : Ensures x P) :
    Ensures x fun a => P a ∧ ∃ m m', x m = .ok (a, m') :=
  fun m a m' out => ⟨ensures m a m' out, m, m', out⟩

/-- A reduction that has not stopped has rewritten the term to a normal form. -/
theorem reduced (t : Term) : Ensures (BoxCalculus.normal .exact .empty t) (Reduces t) := by
  intro m u m' out
  obtain ⟨run, going⟩ := normal_ok_iff.1 out
  exact ⟨by simpa using run.steps, by simpa using run.normal going⟩

/-- The normal form of a term represents what the term is convertible to. -/
theorem represents {t u T : Term} (solid : t.solid = true) (conv : Conv t.bare T)
    (reduces : Reduces t u) : Represents u T :=
  ⟨reduces.1.solid solid, reduces.2, (Conv.of_steps (reduces.1.strip _)).symm.trans conv⟩

/-- A reduction ensures that its result represents the term. -/
theorem normal {t T : Term} (solid : t.solid = true) (conv : Conv t.bare T) :
    Ensures (normal .exact .empty t) (Represents · T) :=
  (reduced t).imp fun _ reduces => represents solid conv reduces

/-- Reducing a type that is in normal form gives the type itself. -/
theorem unchanged {T U : Term} (type : Represents T U) :
    Ensures (BoxCalculus.normal .exact .empty T) (· = T) :=
  (reduced T).imp fun _ reduces => type.normal.steps_eq reduces.1

/-- A type that is found to be the universe is convertible to it. -/
theorem isUniverse {t : Term} (solid : t.solid = true) :
    Ensures (isUniverse .exact .empty t) fun yes => yes = true → Conv t.bare .univ := by
  refine (normal solid (.refl _)).bind fun u actual =>
    (normal rfl (.refl _)).bind fun v expected => pure fun yes => ?_
  rw [Term.equal_iff_strip] at yes
  refine actual.conv.symm.trans ?_
  rw [Term.bare, yes]
  exact expected.conv

/-- A condition that holds if the computation goes on. -/
theorem guard {P : α → Prop} {yes : Bool} {e : TypeError} {rest : Checking α}
    (next : yes = true → Ensures rest P) :
    Ensures (if (!yes) = true then Checking.fail e >>= fun _ : Unit => rest else rest) P := by
  cases yes with
  | false =>
      intro m a m' out
      cases out
  | true => exact next rfl

/-- Settling a type ensures that it is one of the term. -/
theorem settle {ctx : Context} {mode : Mode} {t T actual : Term} (asked : mode.Solid)
    (typed : Typed ctx.types t.bare T) (represents : Represents actual T) :
    Ensures (mode.settle .exact .empty t actual ctx) (Answers ctx mode t) := by
  cases asked with
  | infer => exact pure ⟨typed.conv represents.conv.symm, represents.self, .infer _⟩
  | against solid =>
      refine (normal represents.solid represents.conv).bind fun u first => ?_
      refine (normal solid (.refl _)).bind fun v second => ?_
      split
      · rename_i same
        rw [Term.equal_iff_strip] at same
        refine pure ⟨typed.conv first.conv.symm, first.self, .against solid ?_⟩
        rw [Term.bare, Term.bare, same]
        exact second.conv.symm
      · exact fail _

/-- The declaration that a term reduces to, if that is a proper one. -/
theorem declaration {t : Term} {ctx : Context} (solid : t.solid = true)
    (proper : ∀ name type ctrs, Reduces t (.data name type ctrs) →
      (ctrs.strip fun _ => false).Proper) :
    Ensures (declaration .exact .empty t ctx) fun declared => ∃ name type entries,
      declared = (.data name type entries, entries) ∧
        Represents (.data name type entries) t.bare ∧
        (entries.strip fun _ => false).Proper := by
  refine (reduced t).bind fun nf reduces => ?_
  split
  · rename_i name type entries
    exact pure ⟨name, type, entries, rfl, represents solid (.refl _) reduces,
      proper name type entries reduces⟩
  · exact fail _

/-- The normal form of a term with a value put in. -/
theorem closed {body value v : Term} (solid : body.solid = true) (represents : Represents value v) :
    Ensures (BoxCalculus.normal .exact .empty (body.subst .exact value 0))
      (Represents · (body.bare.inst (Assign.close v))) := by
  obtain ⟨solid, conv⟩ := represents.close solid (.refl body.bare)
  exact normal solid conv

/-- The branches of a case analysis are checked one by one. -/
theorem entries {declared motive : Term} {ctx : Context} {Q : (String × Term) × (String × Term) → Prop} :
    ∀ {branches ctrs : Entries}, (∀ pair ∈ branches.toList.zip ctrs.toList,
      Ensures (BoxCalculus.normal .exact .empty (pair.2.2.subst .exact declared 0) >>= fun type =>
        pair.1.2.judge .exact .empty ctx
          (.against (branchType .exact type motive (.ctr pair.2.1 declared)))) fun _ => Q pair) →
    Ensures (branches.judge .exact .empty ctrs declared motive ctx) fun _ =>
      ∀ pair ∈ branches.toList.zip ctrs.toList, Q pair
  | .nil, _, _ => pure (by simp [Entries.toList])
  | .cons .., .nil, _ => pure (by simp [Entries.toList])
  | .cons label branch rest, .cons label' ctrType ctrs, each => by
      rw [Entries.judge]
      simp only [Entries.toList, List.zip_cons_cons, List.forall_mem_cons] at each ⊢
      rw [← bind_assoc]
      exact each.1.bind fun _ first => (entries each.2).imp fun _ rest => ⟨first, rest⟩

end Ensures

/-- Labels without a mismatch are the same. -/
theorem eq_of_mismatchedLabel? {branches ctrs : List String}
    (none : mismatchedLabel? branches ctrs = none) : branches = ctrs := by
  rw [mismatchedLabel?] at none
  split at none
  · cases none
  · rename_i counts
    rw [Option.map_eq_none_iff, List.find?_eq_none] at none
    have each : List.Forall₂ Eq branches ctrs :=
      List.forall₂_iff_zip.2 ⟨not_not.1 counts, fun mem => by simpa using none _ mem⟩
    rwa [List.forall₂_eq_eq_eq] at each

variable {ctx : Context} {mode : Mode} {t : Term}

/-- What the checker accepts is typed, if all that it judges is regular. -/
theorem Ensures.judge (fine : ctx.Fine) (asked : mode.Solid) (solid : t.solid = true)
    (regular : AllRegular ctx t) :
    Ensures (t.judge .exact .empty ctx mode) (Answers ctx mode t) := by
  induction t generalizing ctx mode with
  | hole => cases solid
  | var index =>
      rw [Term.judge]
      split
      · exact fail _
      · rename_i binding found
        obtain ⟨i, A, rfl, here, types⟩ := Context.types_of_lookup fine found
        exact settle asked (.var i here (.refl _)) types
  | univ => exact settle asked (.univ (.refl _)) (.of_univ (.refl _))
  | ref name => exact fail _
  | pi erased name dom cod dom_ih cod_ih =>
      simp only [Term.solid_pi, Bool.and_eq_true] at solid
      unfold Term.judge
      refine (dom_ih fine .infer solid.1 (regular.part (.head _))).bind fun _ domType => ?_
      refine (isUniverse domType.represents.solid).bind fun _ yes => guard fun sure => ?_
      refine (reduced dom).bind fun dom' reduces => ?_
      have doms := represents solid.1 (.refl _) reduces
      refine (cod_ih (fine.extend doms name) .infer solid.2
        (regular.judged (.pi reduces))).bind fun _ codType => ?_
      refine (isUniverse codType.represents.solid).bind fun _ yes' => guard fun sure' => ?_
      exact settle asked (.pi (domType.typed.conv (yes sure))
        ((codType.typed.conv (yes' sure')).context_cons doms.conv) (.refl _)) (.of_univ (.refl _))
  | lam erased name dom body _ body_ih =>
      simp only [Term.solid_lam, Bool.and_eq_true] at solid
      unfold Term.judge
      simp only [(Term.solid_iff.1 solid.1).1, Bool.false_eq_true, if_false]
      refine (reduced dom).bind fun dom' reduces => ?_
      have doms := represents solid.1 (.refl _) reduces
      refine (body_ih (fine.extend doms name) .infer solid.2
        (regular.judged (.lam reduces))).bind fun cod cods => ?_
      exact settle asked (.lam (cods.typed.context_cons doms.conv) (.refl _))
        (.of_pi doms cods.represents)
  | app erased fn arg fn_ih arg_ih =>
      simp only [Term.solid_app, Bool.and_eq_true] at solid
      unfold Term.judge
      refine (fn_ih fine .infer solid.1 (regular.part (.head _))).bind fun _ fnType => ?_
      refine (normal fnType.represents.solid (.refl _)).bind fun _ form => ?_
      split
      · rename_i dom cod
        have doms := form.self.part (.head _) .refl
        have cods := form.self.part (.tail _ (.head _)) .refl
        refine (arg_ih fine (.against doms.solid) solid.2
          (regular.part (.tail _ (.head _)))).bind fun _ argType => ?_
        refine (normal solid.2 (.refl _)).bind fun argument args => ?_
        refine (closed cods.solid args).bind fun _ result => ?_
        exact settle asked (.app (fnType.typed.conv form.conv.symm) argType.against (.refl _)) result
      · exact fail _
  | sigma erased name fst snd fst_ih snd_ih =>
      simp only [Term.solid_sigma, Bool.and_eq_true] at solid
      unfold Term.judge
      refine (fst_ih fine .infer solid.1 (regular.part (.head _))).bind fun _ fstType => ?_
      refine (isUniverse fstType.represents.solid).bind fun _ yes => guard fun sure => ?_
      refine (reduced fst).bind fun fst' reduces => ?_
      have fsts := represents solid.1 (.refl _) reduces
      refine (snd_ih (fine.extend fsts name) .infer solid.2
        (regular.judged (.sigma reduces))).bind fun _ sndType => ?_
      refine (isUniverse sndType.represents.solid).bind fun _ yes' => guard fun sure' => ?_
      exact settle asked (.sigma (fstType.typed.conv (yes sure))
        ((sndType.typed.conv (yes' sure')).context_cons fsts.conv) (.refl _)) (.of_univ (.refl _))
  | pair erased type fst snd _ fst_ih snd_ih =>
      simp only [Term.solid_pair, Bool.and_eq_true] at solid
      unfold Term.judge
      refine (normal solid.1.1 (.refl _)).bind fun _ form => ?_
      split
      · rename_i fstType sndType
        have fsts := form.self.part (.head _) .refl
        have snds := form.self.part (.tail _ (.head _)) .refl
        refine (fst_ih fine (.against fsts.solid) solid.1.2
          (regular.part (.head _))).bind fun _ fst_typed => ?_
        refine (normal solid.1.2 (.refl _)).bind fun component components => ?_
        obtain ⟨snd_solid, snd_conv⟩ := components.close snds.solid (.refl _)
        refine (snd_ih fine (.against snd_solid) solid.2
          (regular.part (.tail _ (.head _)))).bind fun _ snd_typed => ?_
        exact settle asked (.pair form.conv.symm fst_typed.against (snd_typed.against.conv snd_conv)
          (.refl _)) form
      · exact fail _
  | split erased scrutinee name motive fstName sndName body scrutinee_ih motive_ih body_ih =>
      simp only [Term.solid_split, Bool.and_eq_true] at solid
      unfold Term.judge
      refine (scrutinee_ih fine .infer solid.1.1 (regular.part (.head _))).found.bind ?_
      rintro T ⟨types, infers⟩
      refine (unchanged types.represents).bind ?_
      rintro _ rfl
      split
      · rename_i fstType sndType
        have form := types.represents
        have fsts := form.part (.head _) .refl
        have snds := form.part (.tail _ (.head _)) .refl
        refine (motive_ih (fine.extend form name) .infer solid.1.2
          (regular.judged (.splitMotive infers))).bind fun _ sort => ?_
        refine (isUniverse sort.represents.solid).bind fun _ yes => guard fun sure => ?_
        obtain ⟨body_solid, body_conv⟩ := form.splitBodyType erased solid.1.2
        refine (body_ih ((fine.extend fsts fstName).extend snds sndName) (.against body_solid)
          solid.2 (regular.judged (.splitBody infers))).bind fun _ body_typed => ?_
        refine (normal solid.1.1 (.refl _)).bind fun value values => ?_
        refine (closed solid.1.2 values).bind fun _ result => ?_
        exact settle asked (.split types.typed (sort.typed.conv (yes sure))
          (body_typed.against.conv body_conv) (.refl _)) result
      · exact fail _
  | data name type ctrs =>
      simp only [Term.solid_data, Bool.and_eq_true] at solid
      unfold Term.judge
      exact (normal solid.1 (.refl _)).bind fun _ types => settle asked (.data (.refl _)) types
  | ctr label type =>
      rw [Term.solid_ctr] at solid
      unfold Term.judge
      refine (declaration solid regular.here).bind ?_
      rintro _ ⟨name, type', entries, rfl, decls, proper⟩
      dsimp only
      split
      · rename_i ctrType found
        have ctr_solid := decls.solid
        simp only [Term.solid_data, Bool.and_eq_true, List.all_eq_true] at ctr_solid
        refine (closed (ctr_solid.2 _ (Entries.mem_of_find? found)) decls.self).bind
          fun _ result => ?_
        refine settle asked (.ctr label decls.conv.symm proper ?_ (.refl _)) result
        rw [Entries.strip_eq_map, Entries.find?_map, found]
        rfl
      · exact fail _
  | caseOf type value name motive branches _ value_ih motive_ih branches_ih =>
      simp only [Term.solid_caseOf, Bool.and_eq_true, List.all_eq_true] at solid
      unfold Term.judge
      refine (declaration solid.1.1.1 regular.here).bind ?_
      rintro _ ⟨dataName, type', entries, rfl, decls, proper⟩
      dsimp only
      split
      · exact fail _
      · rename_i none
        have labels := eq_of_mismatchedLabel? none
        refine (value_ih fine .infer solid.1.1.2 (regular.part (.head _))).found.bind ?_
        rintro T ⟨types, infers⟩
        refine (unchanged types.represents).bind ?_
        rintro valueType rfl
        refine guard fun same => ?_
        have form := types.represents
        refine (motive_ih (fine.extend form name) .infer solid.1.2
          (regular.judged (.caseMotive infers))).bind fun _ sort => ?_
        refine (isUniverse sort.represents.solid).bind fun _ yes => guard fun sure => ?_
        have ctr_solid := decls.solid
        simp only [Term.solid_data, Bool.and_eq_true, List.all_eq_true] at ctr_solid
        refine (Ensures.entries (Q := fun pair => Typed ctx.types pair.1.2.bare
          (branchType .exact (pair.2.2.bare.inst (Assign.close (Term.data dataName type' entries).bare))
            motive.bare (.ctr pair.2.1 (Term.data dataName type' entries).bare)))
          fun pair mem => ?_).bind fun _ branches_typed => ?_
        · obtain ⟨branch_mem, ctr_mem⟩ := List.of_mem_zip mem
          refine (closed (ctr_solid.2 _ ctr_mem) decls.self).bind fun _ ctrType => ?_
          obtain ⟨branch_solid, branch_conv⟩ :=
            Represents.branchType pair.2.1 ctrType decls.self (proper.telescope ctr_mem) solid.1.2
          have judged : (0, pair.1.2) ∈ (Term.caseOf type value name motive branches).judgedParts :=
            .tail _ (.tail _ (List.mem_map_of_mem (f := fun entry => (0, entry.2)) branch_mem))
          exact (branches_ih _ branch_mem fine (.against branch_solid) (solid.2 _ branch_mem)
            (regular.part judged)).imp fun _ branch => branch.against.conv branch_conv
        · refine (normal solid.1.1.2 (.refl _)).bind fun scrutinee values => ?_
          refine (closed solid.1.2 values).bind fun _ result => ?_
          have head : valueType.bare = (Term.data dataName type' entries).bare.apply
              (valueType.spine.2.map fun arg => (false, arg.2.bare)) := by
            rw [Term.equal_iff_strip] at same
            exact Term.eq_apply_of_spine (by rw [Term.strip_spine, same])
          have value_typed := types.typed
          have motive_typed : Typed (valueType.bare :: ctx.types) motive.bare .univ :=
            sort.typed.conv (yes sure)
          rw [head] at value_typed motive_typed
          refine settle asked (.caseOf decls.conv.symm proper ?_ value_typed motive_typed ?_
            (.refl _)) result
          · rw [Entries.strip_eq_map, Entries.strip_eq_map, Entries.labels_map, Entries.labels_map,
              labels]
          · rw [Entries.toList_strip, Entries.toList_strip, List.zip_map, List.forall_mem_map]
            exact branches_typed
  | dup name value body value_ih body_ih =>
      simp only [Term.solid_dup, Bool.and_eq_true] at solid
      unfold Term.judge
      refine (value_ih fine .infer solid.1 (regular.part (.head _))).found.bind ?_
      rintro T ⟨types, infers⟩
      refine (unchanged types.represents).bind ?_
      rintro _ rfl
      split
      · rename_i content
        have contents := types.represents.part (.head _) .refl
        refine (body_ih (fine.extend contents name) .infer solid.2
          (regular.judged (.dup infers))).found.bind ?_
        rintro bodyType ⟨bodies, infers'⟩
        rcases regular.here with ⟨u, opens⟩ | independent
        · refine (normal solid.1 opens).bind fun _ values => ?_
          obtain ⟨inner, rfl, inners⟩ := values.box
          refine (closed bodies.represents.solid inners).bind fun _ result => ?_
          exact settle asked (.unbox types.typed bodies.typed opens (.refl _)) result
        · obtain ⟨B, conv⟩ := independent content bodyType infers infers'
          refine (normal solid.1 (.refl _)).bind fun nf values => ?_
          have float := Typed.float types.typed (bodies.typed.conv conv)
          have closes (v : Term) : Conv (bodyType.bare.inst (Assign.close v)) B := by
            have same := conv.close (.refl v)
            rwa [Term.inst_raise_close] at same
          -- The type does not depend on what is put in, whether it is a box's content or the value.
          split
          case' h_1 => have unboxed := values.part (.head _) .refl
          case' h_2 => have unboxed := values
          all_goals
            exact (closed bodies.represents.solid unboxed).bind fun _ result =>
              settle asked float (result.trans (closes _))
      · exact fail _
  | box value value_ih =>
      unfold Term.judge
      refine (value_ih fine .infer solid (regular.part (.head _))).bind fun _ types => ?_
      exact settle asked (.box types.typed (.refl _)) (.of_boxType types.represents)
  | boxType type type_ih =>
      unfold Term.judge
      refine (type_ih fine .infer solid (regular.part (.head _))).bind fun _ types => ?_
      refine (isUniverse types.represents.solid).bind fun _ yes => guard fun sure => ?_
      exact settle asked (.boxType (types.typed.conv (yes sure)) (.refl _)) (.of_univ (.refl _))

end BoxCalculus
