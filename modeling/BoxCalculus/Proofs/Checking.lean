import BoxCalculus.Proofs.Inhabitation
import BoxCalculus.Proofs.Soundness

/-!
# What the checker accepts

A term for which the checker infers a type has the core of that type, when annotations are not looked at
(`Ensures.inhabits`). Gaps are no exception, and neither is a duplication: the checker puts what is
opened into the type of the body, and types see its core. All that is asked of the term is that its
declarations declare families of types with constructors for them (`Term.DeclaresFamily`), which the
checker takes on trust.
-/

namespace BoxCalculus

open Term (Everywhere)

/-- If the term is a declaration, then it declares a family of types, and its constructors are functions
into the declared type, up to conversion. -/
def Term.DeclaresFamily : Term → Prop
  | .data _ type ctrs => (∃ A, Conv type A ∧ Arity A) ∧
      ∀ ctr ∈ ctrs.toList, ∃ A, Conv ctr.2 A ∧ Telescope 0 A
  | _ => True

/-- That declarations declare families is a stable condition. -/
theorem stable_declaresFamily : Stable Term.DeclaresFamily where
  ordinary := by
    intro t ordinary
    cases t <;> trivial
  data_inst := by
    intro name type ctrs σ family
    obtain ⟨⟨A, conv, arity⟩, ctr_family⟩ := family
    rw [Term.inst_data]
    refine ⟨⟨_, conv.inst_same σ, arity.inst σ⟩, ?_⟩
    rw [Entries.toList_map, List.forall_mem_map]
    intro ctr mem
    obtain ⟨B, conv, telescope⟩ := ctr_family ctr mem
    exact ⟨_, conv.inst_same σ.up, telescope.inst rfl⟩
  data_parts := by
    intro name type ctrs u family parts
    obtain ⟨⟨A, conv, arity⟩, ctr_family⟩ := family
    obtain ⟨type', ctrs', types, related, rfl⟩ := Parted.data_iff.1 parts
    refine ⟨⟨A, (Conv.of_steps types).symm.trans conv, arity⟩, ?_⟩
    have each : ∀ term ∈ ctrs.terms, ∃ A, Conv term A ∧ Telescope 0 A :=
      List.forall_mem_map.2 ctr_family
    have kept : ∀ term ∈ ctrs'.terms, ∃ A, Conv term A ∧ Telescope 0 A :=
      forall_mem_of_forall₂ related.2 each fun _ _ steps ⟨A, conv, telescope⟩ =>
        ⟨A, (Conv.of_steps steps).symm.trans conv, telescope⟩
    exact fun ctr mem => kept ctr.2 (List.mem_map_of_mem mem)

/-- A normal declaration of a family is a proper one. -/
theorem Term.DeclaresFamily.proper {name : String} {type : Term} {ctrs : Entries}
    (family : (Term.data name type ctrs).DeclaresFamily)
    (normal : Normal .exact .empty (.data name type ctrs)) : ctrs.Proper := by
  intro ctr mem
  obtain ⟨A, ⟨w, steps, steps'⟩, telescope⟩ := family.2 ctr mem
  have inside : (1, ctr.2) ∈ (Term.data name type ctrs).parts := by
    rw [Term.parts_data]
    exact List.mem_append_left _ (List.mem_map_of_mem (List.mem_map_of_mem mem))
  rw [(normal.part inside).steps_eq steps] at steps'
  exact telescope.steps steps'

/-- The core of a telescope is a telescope. -/
theorem Telescope.core {self : Nat} {t : Term} (telescope : Telescope self t) :
    Telescope self t.core := by
  induction telescope with
  | fn dom cod _ ih => exact .fn _ _ ih
  | result self args =>
      rw [Term.core_apply]
      exact .result ..

/-- The core of the type of a constructor is one. -/
theorem Constructs.core {t : Term} (constructs : Constructs t) : Constructs t.core := by
  induction constructs with
  | fn dom cod _ ih => exact .fn _ _ ih
  | result type ctrs args =>
      rw [Term.core_apply]
      exact .result ..

/-- The core of an arity is an arity. -/
theorem Arity.core {t : Term} (arity : Arity t) : Arity t.core := by
  induction arity with
  | fn dom cod _ ih => exact .fn _ _ ih
  | univ => exact .univ

/-- The core of proper constructors is proper. -/
theorem Entries.Proper.core {entries : Entries} (proper : (entries.strip fun _ => false).Proper) :
    entries.core.Proper := by
  rw [Entries.Proper, Entries.core_eq_map, Entries.toList_map, List.forall_mem_map]
  intro ctr mem
  have telescope := (proper.telescope mem).core
  rwa [Term.core_strip] at telescope

/-- What holds everywhere in a case analysis holds in its branches. -/
theorem Term.Everywhere.bare_branch {P : Term → Prop} {type value motive : Term} {name : String}
    {branches : Entries} {entry : String × Term}
    (everywhere : Everywhere P (.caseOf type value name motive (branches.strip fun _ => false)))
    (mem : entry ∈ branches.toList) : Everywhere P entry.2.bare := by
  have inside := List.mem_map_of_mem (f := fun entry => (entry.1, entry.2.bare)) mem
  rw [← Entries.toList_strip] at inside
  exact everywhere.branch inside

/-- The core of the type of the body of a split is made of that of the motive. -/
theorem core_splitBodyType (erased : Bool) (sigma motive : Term) :
    (splitBodyType .exact erased sigma motive).core = motive.core.inst (Assign.paired .hole) := by
  have pairs : (Assign.paired sigma.bare).core = Assign.paired .hole := by
    funext i
    cases i <;> rfl
  have bodies := congrArg Term.core (strip_splitBodyType erased sigma motive)
  rwa [Term.core_strip, Term.core_inst, pairs, Term.core_strip] at bodies

/-- The core of the type of a branch is made of the cores. -/
theorem core_branchType {type : Term} (constructs : Constructs type) (motive value : Term) :
    (branchType .exact type motive value).core =
      branchType .exact type.core motive.core value.core := by
  induction constructs generalizing motive value with
  | fn dom cod _ ih =>
      have room : (Assign.raise 1).up.core = (Assign.raise 1).up := Assign.core_up _
      rw [branchType_pi, Term.core, ih, Term.core_inst, room, Term.core, branchType_pi, Term.core,
        Term.core_raise, Term.core]
  | result type ctrs args =>
      rw [branchType_result, Term.core_close, Term.core_apply, Term.core, branchType_result]

/-- The scope of the variables of a context: all of them stand for themselves. -/
def Context.scope (ctx : Context) : Scope where
  values i := .var i
  types i := ctx.bindings[i]?.map fun binding => binding.type.core.inst (Assign.raise (i + 1))

namespace Context

variable (ctx : Context)

/-- In the scope of a context, a term stands for its core. -/
theorem value_scope (t : Term) : ctx.scope.value t = t.core :=
  Term.inst_self _

/-- In the scope of a context, a motive stands for its core. -/
theorem motive_scope (motive : Term) : motive.core.inst ctx.scope.values.up = motive.core := by
  rw [scope, Assign.up_self, Term.inst_self]

/-- Extending the context binds the core of the type. -/
theorem scope_extend (name : String) (A : Term) :
    (ctx.extend name A).scope = ctx.scope.bind A.core := by
  refine Scope.ext Assign.up_self.symm (funext fun i => ?_)
  cases i with
  | zero => rfl
  | succ i =>
      simp [scope, extend, Scope.types_bind_succ, Function.comp_def, Term.inst_raise_raise]

/-- What is looked up is a variable with its type. -/
theorem types_scope {index : Int} {binding : Binding}
    (found : ctx.lookup .exact index = some binding) :
    ∃ i : Nat, index = i ∧ ctx.scope.types i = some binding.type.core := by
  rw [lookup, Option.ite_none_right_eq_some, Option.map_eq_some_iff] at found
  obtain ⟨nonneg, outer, here, rfl⟩ := found
  obtain ⟨i, rfl⟩ := Int.eq_ofNat_of_zero_le nonneg
  refine ⟨i, rfl, ?_⟩
  have moved : outer.type.shift .exact (i + 1 : Nat) 0 = outer.type.inst (Assign.raise (i + 1)) :=
    Term.shift_eq_inst outer.type (i + 1) 0
  have place : ctx.bindings[i]? = some outer := here
  simp only [scope, place, Option.map_some, ← Term.core_raise, ← moved]
  rfl

end Context

/-- The type that a term has if it is judged in a mode and `T` is the answer. -/
def Mode.asks : Mode → Term → Term
  | infer, T => T
  | against expected, _ => expected

namespace Ensures

/-- The normal form of a term is seen as the term is. -/
theorem seen (t : Term) : Ensures (BoxCalculus.normal .exact .empty t) fun u =>
    Conv t.core u.core :=
  (reduced t).imp fun _ ⟨steps, _⟩ => Steps.core steps

/-- The normal form of a term with a value put in, where the value is seen as `v` is. -/
theorem seen_closed (body : Term) {value v : Term} (values : Conv v.core value.core) :
    Ensures (BoxCalculus.normal .exact .empty (body.subst .exact value 0)) fun u =>
      Conv (body.core.inst (Assign.close v.core)) u.core := by
  refine (seen _).imp fun u conv => Conv.trans ?_ conv
  rw [Term.subst_zero, Term.core_close]
  exact (Conv.refl _).close values

/-- A type that is found to be the universe has a core that is convertible to it. -/
theorem seen_universe (t : Term) :
    Ensures (BoxCalculus.isUniverse .exact .empty t) fun yes => yes = true → Conv t.core .univ := by
  refine (seen t).bind fun u actual => (seen .univ).bind fun v expected => pure fun yes => ?_
  rw [Term.core_eq_of_equal yes] at actual
  exact actual.trans expected.symm

/-- What is settled for a term is a type of it. -/
theorem settle_inhabits {Γ : Scope} {t actual : Term} (mode : Mode) (ctx : Context)
    (inhabits : Inhabits Γ t actual.core) :
    Ensures (mode.settle .exact .empty t actual ctx) fun T => Inhabits Γ t (mode.asks T).core := by
  cases mode with
  | infer => exact pure inhabits
  | against expected =>
      refine (seen actual).bind fun u first => (seen expected).bind fun v second => ?_
      split
      · rename_i same
        rw [Term.core_eq_of_equal same] at first
        exact pure (inhabits.conv (first.trans second.symm))
      · exact fail _

/-- A declaration that the term reduces to is proper. -/
theorem proper_declaration {t : Term} {ctx : Context}
    (families : Everywhere Term.DeclaresFamily t.bare) :
    Ensures (BoxCalculus.declaration .exact .empty t ctx) fun declared => ∃ name type ctrs,
      declared = (.data name type ctrs, ctrs) ∧ (ctrs.strip fun _ => false).Proper := by
  refine (reduced t).bind fun nf ⟨steps, normal⟩ => ?_
  split
  · have family := (stable_declaresFamily.steps (steps.strip _) families).here
    exact pure ⟨_, _, _, rfl, family.proper (normal.strip _)⟩
  · exact fail _

end Ensures

/-- The type of a branch, made from the normal form of the type of its constructor. -/
theorem Telescope.conv_branchType {name : String} {ctrType type u : Term} {ctrs : Entries}
    (telescope : Telescope 0 ctrType.bare)
    (steps : Steps .exact .empty (ctrType.subst .exact (.data name type ctrs) 0) u)
    (label : String) (motive : Term) :
    Conv (branchType .exact u motive (.ctr label (.data name type ctrs))).core
      (branchType .exact (ctrType.core.inst (Assign.close (.data "" type.core ctrs.core))) motive.core
        (.ctr label .hole)) := by
  have constructs : Constructs u.bare := by
    have steps' := steps.strip fun _ => false
    rw [Term.strip_subst, Term.subst_zero] at steps'
    exact (telescope.constructs ⟨_, _, Assign.close_zero _⟩).steps steps'
  have cores : (branchType .exact u motive (.ctr label (.data name type ctrs))).core =
      branchType .exact u.core motive.core (.ctr label .hole) := by
    have bare := congrArg Term.core (strip_branchType u motive (.ctr label (.data name type ctrs)))
    rwa [core_branchType constructs, Term.core_strip, Term.core_strip, Term.core_strip,
      Term.core_strip] at bare
  have telescope' := telescope.core
  rw [Term.core_strip] at telescope'
  have constructs' : Constructs (ctrType.core.inst (Assign.close (.data "" type.core ctrs.core))) :=
    telescope'.constructs ⟨_, _, Assign.close_zero _⟩
  have conv := Steps.core steps
  rw [Term.subst_zero, Term.core_close] at conv
  have constructs'' := constructs.core
  rw [Term.core_strip] at constructs''
  rw [cores]
  exact branchType_conv constructs'' constructs' conv.symm (.refl _) (.refl _)

variable {ctx : Context} {mode : Mode} {t : Term}

/-- The branches of a case analysis have the types that its constructors demand, if what is checked
against a type has it. -/
theorem Ensures.branches_inhabit {name : String} {type motive : Term} {ctrs branches : Entries}
    (proper : (ctrs.strip fun _ => false).Proper)
    (sound : ∀ branch ∈ branches.toList, ∀ expected,
      Ensures (branch.2.judge .exact .empty ctx (.against expected)) fun _ =>
        Inhabits ctx.scope branch.2 expected.core) :
    Ensures (branches.judge .exact .empty ctrs (.data name type ctrs) motive ctx) fun _ =>
      ∀ pair ∈ branches.toList.zip ctrs.core.toList, Inhabits ctx.scope pair.1.2
        (branchType .exact (pair.2.2.inst (Assign.close (.data "" type.core ctrs.core))) motive.core
          (.ctr pair.2.1 .hole)) := by
  rw [Entries.core_eq_map, Entries.toList_map, List.zip_map_right]
  simp only [List.forall_mem_map]
  refine entries fun pair mem => ?_
  obtain ⟨branch_mem, ctr_mem⟩ := List.of_mem_zip mem
  refine (reduced _).bind fun ctrType reduces => ?_
  obtain ⟨steps, -⟩ := reduces
  refine (sound _ branch_mem _).imp fun _ branch => branch.conv ?_
  rw [← Entries.core_eq_map]
  exact (proper.telescope ctr_mem).conv_branchType steps pair.2.1 motive

/-- A term has the type that is inferred for it, and the one that it is checked against. -/
theorem Ensures.inhabits (families : Everywhere Term.DeclaresFamily t.bare) :
    Ensures (t.judge .exact .empty ctx mode) fun T => Inhabits ctx.scope t (mode.asks T).core := by
  induction t generalizing ctx mode with
  | hole =>
      intro m T m' out
      cases out
  | var index =>
      rw [Term.judge]
      split
      · exact fail _
      · rename_i binding found
        obtain ⟨i, rfl, types⟩ := ctx.types_scope found
        exact settle_inhabits mode ctx (.var i types (.refl _))
  | univ => exact settle_inhabits mode ctx (.univ (.refl _))
  | ref name => exact fail _
  | pi erased name dom cod dom_ih cod_ih =>
      simp only [Term.strip] at families
      unfold Term.judge
      refine (dom_ih (families.part (.head _))).bind fun _ domType => ?_
      refine (seen_universe _).bind fun _ yes => guard fun sure => ?_
      refine (seen dom).bind fun dom' _ => ?_
      refine (cod_ih (families.part (.tail _ (.head _)))).bind fun _ codType => ?_
      refine (seen_universe _).bind fun _ yes' => guard fun sure' => ?_
      rw [Context.scope_extend] at codType
      exact settle_inhabits mode ctx
        (.pi (domType.conv (yes sure)) (codType.conv (yes' sure')) (.refl _))
  | lam erased name dom body _ body_ih =>
      simp only [Term.strip] at families
      have bodies (ctx mode) := @body_ih ctx mode (families.part (.tail _ (.head _)))
      unfold Term.judge
      split
      · split
        · exact fail _
        · rename_i expected
          refine (seen expected).bind fun nf conv => ?_
          split
          · refine (bodies _ _).imp fun _ body_typed => ?_
            rw [Context.scope_extend] at body_typed
            exact .lam body_typed conv.symm
          · exact fail _
      · refine (seen dom).bind fun dom' _ => (bodies _ _).bind fun cod body_typed => ?_
        rw [Context.scope_extend] at body_typed
        exact settle_inhabits mode ctx (.lam body_typed (.refl _))
  | app erased fn arg fn_ih arg_ih =>
      simp only [Term.strip] at families
      unfold Term.judge
      refine (fn_ih (families.part (.head _))).bind fun _ fnType => ?_
      refine (seen _).bind fun _ form => ?_
      split
      · rename_i dom cod
        refine (arg_ih (families.part (.tail _ (.head _)))).bind fun _ argType => ?_
        refine (seen arg).bind fun argument args => (seen_closed cod args).bind fun _ result => ?_
        refine settle_inhabits mode ctx (.app (fnType.conv form) argType ?_)
        rw [Context.value_scope]
        exact result
      · exact fail _
  | sigma erased name fst snd fst_ih snd_ih =>
      simp only [Term.strip] at families
      unfold Term.judge
      refine (fst_ih (families.part (.head _))).bind fun _ fstType => ?_
      refine (seen_universe _).bind fun _ yes => guard fun sure => ?_
      refine (seen fst).bind fun fst' _ => ?_
      refine (snd_ih (families.part (.tail _ (.head _)))).bind fun _ sndType => ?_
      refine (seen_universe _).bind fun _ yes' => guard fun sure' => ?_
      rw [Context.scope_extend] at sndType
      exact settle_inhabits mode ctx
        (.sigma (fstType.conv (yes sure)) (sndType.conv (yes' sure')) (.refl _))
  | pair erased type fst snd _ fst_ih snd_ih =>
      simp only [Term.strip] at families
      unfold Term.judge
      refine (seen type).bind fun _ form => ?_
      split
      · rename_i fstType sndType
        refine (fst_ih (families.part (.tail _ (.head _)))).bind fun _ fst_typed => ?_
        refine (seen fst).bind fun component fsts => ?_
        refine (snd_ih (families.part (.tail _ (.tail _ (.head _))))).bind fun _ snd_typed => ?_
        refine settle_inhabits mode ctx (.pair fst_typed (snd_typed.conv ?_) (.refl _))
        rw [Mode.asks, Term.subst_zero, Term.core_close, Context.value_scope]
        exact (Conv.refl _).close fsts.symm
      · exact fail _
  | split erased scrutinee name motive fstName sndName body scrutinee_ih motive_ih body_ih =>
      simp only [Term.strip] at families
      unfold Term.judge
      refine (scrutinee_ih (families.part (.head _))).bind fun _ types => ?_
      refine (seen _).bind fun _ form => ?_
      split
      · rename_i fstType sndType
        refine (motive_ih (families.part (.tail _ (.head _)))).bind fun _ sort => ?_
        refine (seen_universe _).bind fun _ yes => guard fun sure => ?_
        refine (body_ih (families.part (.tail _ (.tail _ (.head _))))).bind fun _ body_typed => ?_
        refine (seen scrutinee).bind fun value values => ?_
        refine (seen_closed motive values).bind fun _ result => ?_
        rw [Context.scope_extend] at sort
        rw [Context.scope_extend, Context.scope_extend, Mode.asks, core_splitBodyType,
          ← ctx.motive_scope motive] at body_typed
        refine settle_inhabits mode ctx
          (.split (types.conv form) (sort.conv (yes sure)) body_typed ?_)
        rw [Context.value_scope, Context.motive_scope]
        exact result
      · exact fail _
  | data name type ctrs =>
      simp only [Term.strip] at families
      obtain ⟨⟨A, conv, arity⟩, -⟩ := families.here
      have arity' := arity.core
      have conv' := conv.core
      rw [Term.core_strip] at conv'
      unfold Term.judge
      exact (seen type).bind fun _ types =>
        settle_inhabits mode ctx (.data arity' (conv'.symm.trans types))
  | ctr label type =>
      simp only [Term.strip] at families
      unfold Term.judge
      refine (proper_declaration (families.part (.head _))).bind ?_
      rintro _ ⟨name, type', ctrs, rfl, proper⟩
      dsimp only
      split
      · rename_i ctrType found
        refine (seen_closed ctrType (.refl _)).bind fun _ result => ?_
        refine settle_inhabits mode ctx (.ctr label proper.core ?_ result)
        rw [Entries.core_eq_map, Entries.find?_map, found]
        rfl
      · exact fail _
  | caseOf type value name motive branches _ value_ih motive_ih branches_ih =>
      simp only [Term.strip] at families
      unfold Term.judge
      refine (proper_declaration (families.part (.head _))).bind ?_
      rintro _ ⟨dataName, type', ctrs, rfl, proper⟩
      dsimp only
      split
      · exact fail _
      · rename_i none
        have labels := eq_of_mismatchedLabel? none
        refine (value_ih (families.part (.tail _ (.head _)))).bind fun _ types => ?_
        refine (seen _).bind fun valueType form => guard fun same => ?_
        refine (motive_ih (families.part (.tail _ (.tail _ (.head _))))).bind fun _ sort => ?_
        refine (seen_universe _).bind fun _ yes => guard fun sure => ?_
        refine (branches_inhabit proper fun branch mem expected => branches_ih _ mem
          (families.bare_branch mem)).bind fun _ branches_typed => ?_
        refine (seen value).bind fun scrutinee values => ?_
        refine (seen_closed motive values).bind fun _ result => ?_
        have head : valueType.core = (Term.data "" type'.core ctrs.core).apply
            (valueType.spine.2.map fun arg => (false, arg.2.core)) := by
          conv_lhs => rw [← valueType.apply_spine]
          rw [Term.core_apply, Term.core_eq_of_equal same, Term.core]
        rw [Context.scope_extend] at sort
        have value_typed := types.conv form
        rw [head] at value_typed
        refine settle_inhabits mode ctx (.caseOf proper.core ?_ value_typed (sort.conv (yes sure)) ?_ ?_)
        · rw [Entries.core_eq_map, Entries.labels_map, labels]
        · rw [Context.motive_scope]
          exact branches_typed
        · rw [Context.value_scope, Context.motive_scope]
          exact result
  | dup name value body value_ih body_ih =>
      simp only [Term.strip] at families
      unfold Term.judge
      refine (value_ih (families.part (.head _))).bind fun _ types => ?_
      refine (seen _).bind fun _ form => ?_
      split
      · rename_i content
        refine (body_ih (families.part (.tail _ (.head _)))).bind fun bodyType body_typed => ?_
        refine (seen value).bind fun nf values => ?_
        -- A box is seen as its content, so that both are converted to the value.
        have unboxed (inner : Term) (same : inner.core = nf.core) : Conv value.core inner.core := by
          rw [same]
          exact values
        refine (seen_closed bodyType (unboxed _ (by split <;> rfl))).bind fun _ result => ?_
        rw [Context.scope_extend] at body_typed
        have opened := body_typed.inst (Assign.close (ctx.scope.value value))
        rw [Scope.bind_close] at opened
        refine settle_inhabits mode ctx (.dup (types.conv form) (opened.conv ?_))
        rw [Context.value_scope]
        exact result
      · exact fail _
  | box value value_ih =>
      simp only [Term.strip] at families
      unfold Term.judge
      refine (value_ih (families.part (.head _))).bind fun _ types => ?_
      exact settle_inhabits mode ctx (.box types (.refl _))
  | boxType type type_ih =>
      simp only [Term.strip] at families
      unfold Term.judge
      refine (type_ih (families.part (.head _))).bind fun _ types => ?_
      refine (seen_universe _).bind fun _ yes => guard fun sure => ?_
      exact settle_inhabits mode ctx (.boxType (types.conv (yes sure)) (.refl _))

end BoxCalculus
