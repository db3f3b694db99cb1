import BoxCalculus.Proofs.Conversion
import BoxCalculus.Typing.Judgement

/-!
# Types of constructors and of branches

The type of a constructor is written below the declared type: it is a function type whose result is
that variable applied to arguments (`Telescope`). With the declaration in its place it is a
function type whose result is the declaration applied to arguments (`Constructs`), and remains one
when it is rewritten or instantiated. The type of a branch is made from the type of its constructor,
and both operations go through (`branchType_inst`, `branchType_conv`).

What a constructor is applied to can be passed to its branch as well (`Passes.branch`).
-/

namespace BoxCalculus

/-- `Telescope self t` says that `t` is a function type whose result is the variable `self` applied to
arguments. -/
inductive Telescope : Nat → Term → Prop where
  | fn {self : Nat} (dom cod : Term) : Telescope (self + 1) cod →
      Telescope self (.pi false "" dom cod)
  | result (self : Nat) (args : List (Bool × Term)) : Telescope self ((Term.var self).apply args)

/-- The constructors are functions into the declared type. -/
def Entries.Proper (ctrs : Entries) : Prop :=
  ∀ ctr ∈ ctrs.toList, Telescope 0 ctr.2

/-- `Constructs t` says that `t` is a function type whose result is a declaration applied to
arguments. -/
inductive Constructs : Term → Prop where
  | fn (dom cod : Term) : Constructs cod → Constructs (.pi false "" dom cod)
  | result (type : Term) (ctrs : Entries) (args : List (Bool × Term)) :
      Constructs ((Term.data "" type ctrs).apply args)

/-- An application chain is its head, or an application. -/
theorem Term.apply_cases (head : Term) (args : List (Bool × Term)) :
    head.apply args = head ∨ ∃ erased fn arg, head.apply args = .app erased fn arg := by
  induction args using List.reverseRecOn with
  | nil => exact .inl rfl
  | append_singleton args arg => exact .inr ⟨_, _, _, Term.apply_append head args [arg]⟩

/-- A term is its head applied to the arguments of its spine. -/
theorem Term.eq_apply_of_head {t head : Term} (same : t.head = head) :
    t = head.apply t.spine.2 := by
  rw [← same, ← t.spine_fst, t.apply_spine]

/-- With a declaration in its place, the result is the declaration applied to arguments. -/
theorem Telescope.constructs {self : Nat} {t : Term} (telescope : Telescope self t) {σ : Assign}
    (closes : ∃ type ctrs, σ self = .data "" type ctrs) : Constructs (t.inst σ) := by
  induction telescope generalizing σ with
  | fn dom cod _ ih =>
      obtain ⟨type, ctrs, closes⟩ := closes
      rw [Term.inst_pi]
      exact .fn _ _ (ih ⟨_, _, by rw [Assign.up_succ, closes, Term.inst_data]⟩)
  | result self args =>
      obtain ⟨type, ctrs, closes⟩ := closes
      rw [Term.inst_apply, Term.inst_var, closes]
      exact .result ..

/-- Instantiation keeps a function type into a variable that it keeps. -/
theorem Telescope.inst {self self' : Nat} {t : Term} (telescope : Telescope self t) {σ : Assign}
    (keeps : σ self = .var self') : Telescope self' (t.inst σ) := by
  induction telescope generalizing self' σ with
  | fn dom cod _ ih =>
      rw [Term.inst_pi]
      refine .fn _ _ (ih ?_)
      rw [Assign.up_succ, keeps, Term.inst_var]
      rfl
  | result self args =>
      rw [Term.inst_apply, Term.inst_var, keeps]
      exact .result ..

/-- Instantiation keeps the type of a constructor one. -/
theorem Constructs.inst {t : Term} (constructs : Constructs t) (σ : Assign) :
    Constructs (t.inst σ) := by
  induction constructs generalizing σ with
  | fn dom cod _ ih =>
      rw [Term.inst_pi]
      exact .fn _ _ (ih _)
  | result type ctrs args =>
      rw [Term.inst_apply, Term.inst_data]
      exact .result ..

/-- Instantiation keeps constructors proper. -/
theorem Entries.Proper.inst {ctrs : Entries} (proper : ctrs.Proper) (σ : Assign) :
    (ctrs.map fun type => type.inst σ.up).Proper := by
  intro ctr mem
  rw [Entries.toList_map] at mem
  obtain ⟨ctr, inside, rfl⟩ := List.mem_map.1 mem
  exact (proper ctr inside).inst rfl

/-- With the declaration in place, a proper constructor makes its values. -/
theorem Entries.Proper.constructs {ctrs ctrs' : Entries} {ctr : String × Term} {type : Term}
    (proper : ctrs.Proper) (mem : ctr ∈ ctrs.toList) :
    Constructs (ctr.2.inst (Assign.close (.data "" type ctrs'))) :=
  (proper ctr mem).constructs ⟨_, _, Assign.close_zero _⟩

/-- A proper constructor that is found is a telescope. -/
theorem Entries.Proper.find? {ctrs : Entries} (proper : ctrs.Proper) {label : String} {type : Term}
    (found : ctrs.find? label = some type) : Telescope 0 type :=
  proper _ (Entries.mem_of_find? found)

/-- A branch takes the arguments of its constructor. -/
theorem branchType_pi (erased : Bool) (name : String) (dom cod motive value : Term) :
    branchType .exact (.pi erased name dom cod) motive value =
      .pi erased name dom (branchType .exact cod (motive.inst (Assign.raise 1).up)
        (.app erased (value.inst (Assign.raise 1)) (.var 0))) := by
  rw [branchType, Term.shift_one_up, Term.shift_one]

/-- The result of a branch is the motive at the constructed value. -/
theorem branchType_result (type : Term) (ctrs : Entries) (args : List (Bool × Term))
    (motive value : Term) :
    branchType .exact ((Term.data "" type ctrs).apply args) motive value =
      motive.inst (Assign.close value) := by
  obtain same | ⟨erased, fn, arg, same⟩ := Term.apply_cases (.data "" type ctrs) args
  all_goals
    rw [same, ← Term.subst_zero]
    rfl

/-- Instantiating the type of a branch instantiates what it is made from. -/
theorem branchType_inst {type : Term} (constructs : Constructs type) (motive value : Term)
    (σ : Assign) :
    (branchType .exact type motive value).inst σ =
      branchType .exact (type.inst σ) (motive.inst σ.up) (value.inst σ) := by
  induction constructs generalizing motive value σ with
  | fn dom cod _ ih =>
      have lifted : (motive.inst (Assign.raise 1).up).inst σ.up.up =
          (motive.inst σ.up).inst (Assign.raise 1).up := Term.inst_raise_upBy motive σ 1
      have zero : (Term.var 0).inst σ.up = .var 0 := Term.inst_var 0 σ.up
      rw [branchType_pi, Term.inst_pi, Term.inst_pi, branchType_pi, ih, lifted, Term.inst_app,
        Term.inst_raise_up, zero]
  | result type ctrs args =>
      rw [branchType_result, Term.inst_close_inst, Term.inst_apply, Term.inst_data,
        branchType_result]

/-- Making room below a binder and closing it again. -/
theorem Term.inst_raise_up_close (t value : Term) :
    (t.inst (Assign.raise 1).up).inst (Assign.close value).up = t := by
  have closed : (fun i => (Assign.raise 1 i).inst (Assign.close value)) = fun i : Nat => .var i :=
    funext fun i => Term.inst_var (i + 1) _
  rw [Term.inst_inst, Assign.up_up, closed, Assign.up_self, Term.inst_self]

/-- The type of a branch after its first argument has been passed. -/
theorem branchType_close {cod : Term} (constructs : Constructs cod) (motive value arg : Term) :
    (branchType .exact cod (motive.inst (Assign.raise 1).up)
        (.app false (value.inst (Assign.raise 1)) (.var 0))).inst (Assign.close arg) =
      branchType .exact (cod.inst (Assign.close arg)) motive (.app false value arg) := by
  have zero : (Term.var 0).inst (Assign.close arg) = arg := Term.inst_var 0 _
  rw [branchType_inst constructs, Term.inst_raise_up_close, Term.inst_app, Term.inst_raise_close,
    zero]

/-- A function type is not convertible to a declaration that is applied to arguments. -/
theorem Conv.pi_ne_result {erased : Bool} {name : String} {dom cod type : Term} {ctrs : Entries}
    {args : List (Bool × Term)} :
    ¬ Conv (.pi erased name dom cod) ((Term.data "" type ctrs).apply args) := by
  intro conv
  obtain ⟨_, _, -, -, same⟩ := Parted.pi_iff.1 (conv.parts rfl (Term.rigid_apply ..))
  obtain same' | ⟨_, _, _, same'⟩ := Term.apply_cases (.data "" type ctrs) args
  · cases same'.symm.trans same
  · cases same'.symm.trans same

/-- A branch has convertible types for convertible types of its constructor. -/
theorem branchType_conv {type type' motive motive' value value' : Term}
    (constructs : Constructs type) (constructs' : Constructs type') (types : Conv type type')
    (motives : Conv motive motive') (values : Conv value value') :
    Conv (branchType .exact type motive value) (branchType .exact type' motive' value') := by
  induction constructs generalizing type' motive motive' value value' with
  | fn dom cod _ ih =>
      cases constructs' with
      | fn dom' cod' constructs' =>
          obtain ⟨doms, cods⟩ := types.pi_inj
          have applied : Conv (.app false (value.inst (Assign.raise 1)) (.var 0))
              (.app false (value'.inst (Assign.raise 1)) (.var 0)) :=
            .of_parts (Parted.app_iff.2 ⟨_, _, values.raise, .refl _, rfl⟩)
          rw [branchType_pi, branchType_pi]
          exact .of_parts (Parted.pi_iff.2
            ⟨_, _, doms, ih constructs' cods (motives.inst_same _) applied, rfl⟩)
      | result => exact absurd types Conv.pi_ne_result
  | result type ctrs args =>
      cases constructs' with
      | fn => exact absurd types.symm Conv.pi_ne_result
      | result =>
          rw [branchType_result, branchType_result]
          exact motives.close values

/-- The head of a rigid term is rigid. -/
theorem Term.rigid_head {t : Term} (rigid : t.rigid = true) : t.head.rigid = true := by
  induction t with
  | app erased fn arg fn_ih => exact fn_ih rigid
  | _ => exact rigid

/-- Rewriting keeps a function type into a declaration. -/
theorem Constructs.steps {t u : Term} (constructs : Constructs t) (steps : Steps .exact .empty t u) :
    Constructs u := by
  induction constructs generalizing u with
  | fn dom cod _ ih =>
      obtain ⟨dom', cod', -, cods, rfl⟩ := Parted.pi_iff.1 (rigid_steps rfl steps).1
      exact .fn _ _ (ih cods)
  | result type ctrs args =>
      have rigid : ((Term.data "" type ctrs).apply args).rigid = true := Term.rigid_apply ..
      have rigid' := (rigid_steps rigid steps).2
      have heads := (Conv.of_steps steps).head rigid rigid'
      rw [Term.head_apply] at heads
      obtain ⟨type', ctrs', -, -, same⟩ :=
        Parted.data_iff.1 (heads.parts rfl (Term.rigid_head rigid'))
      rw [Term.eq_apply_of_head same]
      exact .result ..

/-- Rewriting keeps a function type into a variable. -/
theorem Telescope.steps {self : Nat} {t u : Term} (telescope : Telescope self t)
    (steps : Steps .exact .empty t u) : Telescope self u := by
  induction telescope generalizing u with
  | fn dom cod _ ih =>
      obtain ⟨dom', cod', -, cods, rfl⟩ := Parted.pi_iff.1 (rigid_steps rfl steps).1
      exact .fn _ _ (ih cods)
  | result self args =>
      have rigid : ((Term.var self).apply args).rigid = true := Term.rigid_apply ..
      have rigid' := (rigid_steps rigid steps).2
      have heads := (Conv.of_steps steps).head rigid rigid'
      rw [Term.head_apply] at heads
      rw [Term.eq_apply_of_head ((Parted.leaf_iff rfl).1 (heads.parts rfl (Term.rigid_head rigid')))]
      exact .result ..

/-- Rewriting the types of constructors keeps them functions into the declared type. -/
theorem Entries.Proper.related {ctrs entries : Entries} (proper : ctrs.Proper)
    (related : ctrs.Related (Steps .exact .empty) entries) : entries.Proper := by
  have each : ∀ term ∈ ctrs.terms, Telescope 0 term := List.forall_mem_map.2 proper
  have kept := forall_mem_of_forall₂ related.2 each fun _ _ steps telescope => telescope.steps steps
  exact List.forall_mem_map.1 kept

section Passing

variable {α : Type} {R : α → Term → Prop} {value : α → Term} {F F' T : Term} {args : List α}

/-- `Passes R value F args T` says that a function of type `F` can be applied to the arguments, and the
result has type `T`. Here `R arg A` says that an argument has type `A`, and `value arg` is what types see
of it. -/
def Passes (R : α → Term → Prop) (value : α → Term) : Term → List α → Term → Prop
  | F, [], T => Conv F T
  | F, arg :: args, T => ∃ dom cod, Conv F (.pi false "" dom cod) ∧ R arg dom ∧
      Passes R value (cod.inst (Assign.close (value arg))) args T

/-- Arguments can be passed to a convertible type. -/
theorem Passes.conv (passes : Passes R value F args T) (conv : Conv F' F) :
    Passes R value F' args T := by
  cases args with
  | nil => exact conv.trans passes
  | cons arg args =>
      obtain ⟨dom, cod, fn, typed, rest⟩ := passes
      exact ⟨dom, cod, conv.trans fn, typed, rest⟩

/-- Arguments that can be passed have types. -/
theorem Passes.forall_mem (passes : Passes R value F args T) : ∀ arg ∈ args, ∃ A, R arg A := by
  induction args generalizing F with
  | nil => simp
  | cons arg args ih =>
      obtain ⟨dom, cod, -, typed, rest⟩ := passes
      exact List.forall_mem_cons.2 ⟨⟨dom, typed⟩, ih rest⟩

/-- What a constructor builds has the type that its declaration declares. -/
theorem Telescope.passes {self : Nat} {A type type' : Term} {ctrs ctrs' : Entries} {σ : Assign}
    {indices : List (Bool × Term)} (telescope : Telescope self A)
    (closes : σ self = .data "" type' ctrs')
    (passes : Passes R value (A.inst σ) args ((Term.data "" type ctrs).apply indices)) :
    Conv (.data "" type' ctrs') (.data "" type ctrs) := by
  induction telescope generalizing σ args with
  | fn dom cod _ ih =>
      rw [Term.inst_pi] at passes
      cases args with
      | nil => exact absurd passes Conv.pi_ne_result
      | cons arg args =>
          obtain ⟨dom', cod', fn, -, rest⟩ := passes
          have rest' := rest.conv (fn.pi_inj.2.close (.refl (value arg)))
          rw [Term.inst_inst] at rest'
          exact ih (by rw [Assign.up_succ, closes, Term.inst_raise_close]) rest'
  | result self js =>
      rw [Term.inst_apply, Term.inst_var, closes] at passes
      cases args with
      | nil =>
          have heads := Conv.head passes (Term.rigid_apply ..) (Term.rigid_apply ..)
          rwa [Term.head_apply, Term.head_apply] at heads
      | cons arg args =>
          obtain ⟨dom', cod', fn, -, -⟩ := passes
          exact absurd fn.symm Conv.pi_ne_result

/-- A branch can be applied to the arguments of its constructor. -/
theorem Passes.branch {N type : Term} {ctrs : Entries} {indices : List (Bool × Term)}
    (convertible : ∀ {arg A B}, R arg A → Conv A B → R arg B) (constructs : Constructs N)
    (passes : Passes R value N args ((Term.data "" type ctrs).apply indices)) (motive built : Term) :
    Passes R value (branchType .exact N motive built) args
      (motive.inst (Assign.close (built.apply (args.map fun arg => (false, value arg))))) := by
  induction args generalizing N built with
  | nil =>
      cases constructs with
      | fn => exact absurd passes Conv.pi_ne_result
      | result =>
          rw [branchType_result]
          exact .refl _
  | cons arg args ih =>
      obtain ⟨dom', cod', fn, typed, rest⟩ := passes
      cases constructs with
      | fn dom cod constructs =>
          obtain ⟨doms, cods⟩ := fn.pi_inj
          have next := ih (constructs.inst _) (rest.conv (cods.close (.refl (value arg))))
            (.app false built (value arg))
          rw [← branchType_close constructs] at next
          rw [branchType_pi]
          exact ⟨dom, _, .refl _, convertible typed doms.symm, next⟩
      | result => exact absurd fn.symm Conv.pi_ne_result

end Passing

end BoxCalculus
