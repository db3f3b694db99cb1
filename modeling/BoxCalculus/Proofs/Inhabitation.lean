import BoxCalculus.Proofs.Cores
import BoxCalculus.Proofs.Typing

/-!
# Typing without annotations

`Inhabits Γ t T` says that `t` has the type `T` in the scope `Γ`. The rules do not look at annotations,
and types see the cores of terms only, so the variable that a duplication binds stands for the core of
what it opens. A scope therefore gives each variable a core besides a type. Types are terms in the
variables of the other binders.

The relation is stable when variables of types are replaced (`Inhabits.inst`), and when variables of
terms are replaced by terms of their types whose cores are theirs (`Inhabits.subst`).
-/

namespace BoxCalculus

/-- `Arity t` says that `t` is a function type whose result is the universe. -/
inductive Arity : Term → Prop where
  | fn (dom cod : Term) : Arity cod → Arity (.pi false "" dom cod)
  | univ : Arity .univ

/-- Instantiation keeps an arity. -/
theorem Arity.inst {t : Term} (arity : Arity t) (σ : Assign) : Arity (t.inst σ) := by
  induction arity generalizing σ with
  | fn dom cod _ ih =>
      rw [Term.inst_pi]
      exact .fn _ _ (ih _)
  | univ => exact .univ

/-- What is known of the variables of a term: the core that each of them stands for, and its type if it
has one. -/
@[ext] structure Scope where
  values : Assign
  types : Nat → Option Term

namespace Scope

/-- What types see of a term. -/
def value (Γ : Scope) (t : Term) : Term :=
  t.core.inst Γ.values

/-- The scope below a binder whose variable has a type and stands for itself. -/
def bind (Γ : Scope) (A : Term) : Scope where
  values := Γ.values.up
  types
    | 0 => some (A.inst (Assign.raise 1))
    | i + 1 => (Γ.types i).map (·.inst (Assign.raise 1))

/-- The scope below a binder whose variable has a type and stands for a core. -/
def put (Γ : Scope) (v A : Term) : Scope where
  values
    | 0 => v
    | i + 1 => Γ.values i
  types
    | 0 => some A
    | i + 1 => Γ.types i

/-- The scope with the variables of its types replaced. -/
def inst (Γ : Scope) (θ : Assign) : Scope where
  values i := (Γ.values i).inst θ
  types i := (Γ.types i).map (·.inst θ)

variable (Γ : Scope) (θ : Assign)

/-- A bound variable stands for itself. -/
theorem values_bind (A : Term) : (Γ.bind A).values = Γ.values.up := rfl

/-- The other variables keep their types, raised over the binder. -/
theorem types_bind_succ (A : Term) (i : Nat) :
    (Γ.bind A).types (i + 1) = (Γ.types i).map (·.inst (Assign.raise 1)) := rfl

/-- Instantiation replaces variables in the types. -/
theorem types_inst (i : Nat) : (Γ.inst θ).types i = (Γ.types i).map (·.inst θ) := rfl

/-- A variable is seen as what it stands for. -/
theorem value_var (i : Nat) : Γ.value (.var i) = Γ.values i :=
  Term.inst_var i Γ.values

/-- A duplication is seen as its body, where its variable stands for what is opened. -/
theorem value_dup (name : String) (v body A : Term) :
    Γ.value (.dup name v body) = (Γ.put (Γ.value v) A).value body := by
  rw [value, Term.core, Term.inst_inst, value]
  congr 1
  funext i
  cases i with
  | zero => rfl
  | succ i => exact Γ.value_var i

/-- A spine is seen as the spine of what its head and arguments are seen as. -/
theorem value_apply (head : Term) (args : List (Bool × Term)) :
    Γ.value (head.apply args) =
      (Γ.value head).apply (args.map fun arg => (false, Γ.value arg.2)) := by
  rw [value, Term.core_apply, Term.inst_apply, List.map_map]
  rfl

/-- Instantiation replaces variables in what is seen. -/
theorem value_inst (t : Term) : (Γ.inst θ).value t = (Γ.value t).inst θ :=
  (Term.inst_inst ..).symm

/-- What is raised over a binder is seen raised. -/
theorem value_raise_bind (t A : Term) :
    (Γ.bind A).value (t.inst (Assign.raise 1)) = (Γ.value t).inst (Assign.raise 1) := by
  rw [value, Term.core_raise]
  exact Term.inst_raise_up ..

/-- Instantiation goes below a binder in what variables stand for. -/
theorem values_inst_up : (Γ.inst θ).values.up = fun i => (Γ.values.up i).inst θ.up :=
  (Assign.up_up ..).symm

/-- Binding commutes with instantiation. -/
theorem bind_inst (A : Term) : (Γ.bind A).inst θ.up = (Γ.inst θ).bind (A.inst θ) := by
  refine Scope.ext (Γ.values_inst_up θ).symm (funext fun i => ?_)
  cases i with
  | zero => exact congrArg some (Term.inst_raise_up A θ)
  | succ i => simp [bind, inst, Function.comp_def, Term.inst_raise_up]

/-- Putting a value in place commutes with instantiation. -/
theorem put_inst (v A : Term) : (Γ.put v A).inst θ = (Γ.inst θ).put (v.inst θ) (A.inst θ) := by
  refine Scope.ext (funext fun i => ?_) (funext fun i => ?_)
  all_goals cases i <;> rfl

/-- A binder whose variable is replaced by a core. -/
theorem bind_close (v A : Term) : (Γ.bind A).inst (Assign.close v) = Γ.put v A := by
  refine Scope.ext (funext fun i => ?_) (funext fun i => ?_)
  · cases i with
    | zero => exact Term.inst_var 0 _
    | succ i => simp [bind, inst, put, Assign.up_succ]
  · cases i with
    | zero => exact congrArg some (Term.inst_raise_close A v)
    | succ i => simp [bind, inst, put, Function.comp_def]

end Scope

/-- Typing without annotations. The variable of a motive, and that of the result of a function or pair
type, may have any type here: nothing is ever put in its place. -/
inductive Inhabits : Scope → Term → Term → Prop where
  | var {Γ A T} (i : Nat) : Γ.types i = some A → Conv A T → Inhabits Γ (.var i) T
  | univ {Γ T} : Conv .univ T → Inhabits Γ .univ T
  | pi {Γ erased name dom cod A T} : Inhabits Γ dom .univ → Inhabits (Γ.bind A) cod .univ →
      Conv .univ T → Inhabits Γ (.pi erased name dom cod) T
  | lam {Γ erased name dom body A B T} : Inhabits (Γ.bind A) body B →
      Conv (.pi false "" A B) T → Inhabits Γ (.lam erased name dom body) T
  | app {Γ erased fn arg A B T} : Inhabits Γ fn (.pi false "" A B) → Inhabits Γ arg A →
      Conv (B.inst (Assign.close (Γ.value arg))) T → Inhabits Γ (.app erased fn arg) T
  | sigma {Γ erased name fst snd A T} : Inhabits Γ fst .univ → Inhabits (Γ.bind A) snd .univ →
      Conv .univ T → Inhabits Γ (.sigma erased name fst snd) T
  | pair {Γ erased type fst snd A B T} : Inhabits Γ fst A →
      Inhabits Γ snd (B.inst (Assign.close (Γ.value fst))) → Conv (.sigma false "" A B) T →
      Inhabits Γ (.pair erased type fst snd) T
  | split {Γ erased scrutinee name motive fstName sndName body A B C T} :
      Inhabits Γ scrutinee (.sigma false "" A B) → Inhabits (Γ.bind C) motive .univ →
      Inhabits ((Γ.bind A).bind B) body ((motive.core.inst Γ.values.up).inst (Assign.paired .hole)) →
      Conv ((motive.core.inst Γ.values.up).inst (Assign.close (Γ.value scrutinee))) T →
      Inhabits Γ (.split erased scrutinee name motive fstName sndName body) T
  | data {Γ name type ctrs A T} : Arity A → Conv A T → Inhabits Γ (.data name type ctrs) T
  | ctr {Γ D type T A} {ctrs : Entries} (label : String) : ctrs.Proper →
      ctrs.find? label = some A →
      Conv (A.inst (Assign.close (.data "" type ctrs))) T → Inhabits Γ (.ctr label D) T
  | caseOf {Γ D value name motive type indices C T} {branches ctrs : Entries} : ctrs.Proper →
      branches.labels = ctrs.labels →
      Inhabits Γ value ((Term.data "" type ctrs).apply indices) →
      Inhabits (Γ.bind C) motive .univ →
      (∀ entry ∈ branches.toList.zip ctrs.toList, Inhabits Γ entry.1.2
        (branchType .exact (entry.2.2.inst (Assign.close (.data "" type ctrs)))
          (motive.core.inst Γ.values.up) (.ctr entry.2.1 .hole))) →
      Conv ((motive.core.inst Γ.values.up).inst (Assign.close (Γ.value value))) T →
      Inhabits Γ (.caseOf D value name motive branches) T
  | dup {Γ name value body A T} : Inhabits Γ value (.boxType A) →
      Inhabits (Γ.put (Γ.value value) A) body T → Inhabits Γ (.dup name value body) T
  | box {Γ value A T} : Inhabits Γ value A → Conv (.boxType A) T → Inhabits Γ (.box value) T
  | boxType {Γ type T} : Inhabits Γ type .univ → Conv .univ T → Inhabits Γ (.boxType type) T

variable {Γ Δ : Scope} {t T U : Term} {σ : Assign}

/-- A term has every type that is convertible to one of its types. -/
theorem Inhabits.conv (inhabits : Inhabits Γ t T) (conv : Conv T U) : Inhabits Γ t U := by
  induction inhabits generalizing U with
  | var i found same => exact .var i found (same.trans conv)
  | univ same => exact .univ (same.trans conv)
  | pi dom cod same => exact .pi dom cod (same.trans conv)
  | lam body same => exact .lam body (same.trans conv)
  | app fn arg same => exact .app fn arg (same.trans conv)
  | sigma fst snd same => exact .sigma fst snd (same.trans conv)
  | pair fst snd same => exact .pair fst snd (same.trans conv)
  | split scrutinee motive body same => exact .split scrutinee motive body (same.trans conv)
  | data arity same => exact .data arity (same.trans conv)
  | ctr label proper found same => exact .ctr label proper found (same.trans conv)
  | caseOf proper labels value motive branches same =>
      exact .caseOf proper labels value motive branches (same.trans conv)
  | dup value _ _ ih => exact .dup value (ih conv)
  | box value same => exact .box value (same.trans conv)
  | boxType type same => exact .boxType type (same.trans conv)

/-- The types of the branches of a case analysis, when the variables of types are replaced. -/
theorem branchType_declared_inst {ctrs : Entries} (proper : ctrs.Proper) {ctr : String × Term}
    (mem : ctr ∈ ctrs.toList) (type motive : Term) (θ : Assign) :
    (branchType .exact (ctr.2.inst (Assign.close (.data "" type ctrs))) motive
        (.ctr ctr.1 .hole)).inst θ =
      branchType .exact ((ctr.2.inst θ.up).inst (Assign.close ((Term.data "" type ctrs).inst θ)))
        (motive.inst θ.up) (.ctr ctr.1 .hole) := by
  rw [branchType_inst (proper.constructs mem), Term.inst_close_inst, Term.inst_ctr, Term.inst_hole]

/-- The variables of types can be replaced. -/
theorem Inhabits.inst (inhabits : Inhabits Γ t T) (θ : Assign) :
    Inhabits (Γ.inst θ) t (T.inst θ) := by
  have motives : ∀ {Γ : Scope} {θ : Assign} (motive : Term),
      (motive.core.inst Γ.values.up).inst θ.up = motive.core.inst (Γ.inst θ).values.up := by
    intro Γ θ motive
    rw [Term.inst_inst, Scope.values_inst_up]
  induction inhabits generalizing θ with
  | var i found same =>
      exact .var i (by rw [Scope.types_inst, found, Option.map_some]) (same.inst_same θ)
  | univ same => exact .univ (same.inst_same θ)
  | pi _ _ same dom_ih cod_ih =>
      have cod := cod_ih θ.up
      rw [Scope.bind_inst] at cod
      exact .pi (dom_ih θ) cod (same.inst_same θ)
  | lam _ same body_ih =>
      have body := body_ih θ.up
      have conv := same.inst_same θ
      rw [Scope.bind_inst] at body
      rw [Term.inst_pi] at conv
      exact .lam body conv
  | app _ _ same fn_ih arg_ih =>
      have fn := fn_ih θ
      have conv := same.inst_same θ
      rw [Term.inst_pi] at fn
      rw [Term.inst_close_inst, ← Scope.value_inst] at conv
      exact .app fn (arg_ih θ) conv
  | sigma _ _ same fst_ih snd_ih =>
      have snd := snd_ih θ.up
      rw [Scope.bind_inst] at snd
      exact .sigma (fst_ih θ) snd (same.inst_same θ)
  | pair _ _ same fst_ih snd_ih =>
      have snd := snd_ih θ
      have conv := same.inst_same θ
      rw [Term.inst_close_inst, ← Scope.value_inst] at snd
      rw [Term.inst_sigma] at conv
      exact .pair (fst_ih θ) snd conv
  | split _ _ _ same scrutinee_ih motive_ih body_ih =>
      have scrutinee := scrutinee_ih θ
      have motive := motive_ih θ.up
      have body := body_ih θ.up.up
      have conv := same.inst_same θ
      rw [Term.inst_sigma] at scrutinee
      rw [Scope.bind_inst] at motive
      rw [Scope.bind_inst, Scope.bind_inst, Assign.inst_paired, motives] at body
      rw [Term.inst_close_inst, motives, ← Scope.value_inst] at conv
      exact .split scrutinee motive body conv
  | data arity same => exact .data (arity.inst θ) (same.inst_same θ)
  | ctr label proper found same =>
      have conv := same.inst_same θ
      rw [Term.inst_close_inst, Term.inst_data] at conv
      refine .ctr label (proper.inst θ) ?_ conv
      rw [Entries.find?_map, found]
      rfl
  | caseOf proper labels _ _ _ same value_ih motive_ih branches_ih =>
      have value := value_ih θ
      have motive := motive_ih θ.up
      have conv := same.inst_same θ
      rw [Term.inst_apply, Term.inst_data] at value
      rw [Scope.bind_inst] at motive
      rw [Term.inst_close_inst, motives, ← Scope.value_inst] at conv
      refine .caseOf (proper.inst θ) (by simpa using labels) value motive (fun entry mem => ?_) conv
      rw [Entries.toList_map, List.zip_map_right] at mem
      obtain ⟨entry, inside, rfl⟩ := List.mem_map.1 mem
      have branch := branches_ih entry inside θ
      rwa [branchType_declared_inst proper (List.of_mem_zip inside).2, Term.inst_data, motives]
        at branch
  | dup _ _ value_ih body_ih =>
      have body := body_ih θ
      rw [Scope.put_inst, ← Scope.value_inst] at body
      exact .dup (value_ih θ) body
  | box _ same value_ih => exact .box (value_ih θ) (same.inst_same θ)
  | boxType _ same type_ih => exact .boxType (type_ih θ) (same.inst_same θ)

/-- `P Δ σ Γ` may hold of assignments that give each variable of `Γ` a term of its type in `Δ` that is
seen as the variable is, if it carries over to the binders that a term goes below. -/
structure Replaces (P : Scope → Assign → Scope → Prop) : Prop where
  value : ∀ {Δ σ Γ}, P Δ σ Γ → ∀ i, Conv (Δ.value (σ i)) (Γ.values i)
  var : ∀ {Δ σ Γ i A}, P Δ σ Γ → Γ.types i = some A → Inhabits Δ (σ i) A
  bind : ∀ {Δ σ Γ}, P Δ σ Γ → ∀ A, P (Δ.bind A) σ.up (Γ.bind A)
  put : ∀ {Δ σ Γ v w}, P Δ σ Γ → Conv v w → ∀ A, P (Δ.put v A) σ.up (Γ.put w A)

/-- A term is seen as before when its variables are replaced by terms that are seen as they are. -/
theorem Scope.value_subst (seen : ∀ i, Conv (Δ.value (σ i)) (Γ.values i)) (t : Term) :
    Conv (Δ.value (t.inst σ)) (Γ.value t) := by
  rw [Scope.value, Term.core_inst, Term.inst_inst]
  exact (Conv.refl t.core).inst seen

/-- Typing is stable under replacing the variables of a term. The type stays, since it sees the same
cores. -/
theorem Inhabits.subst {P : Scope → Assign → Scope → Prop} (replaces : Replaces P)
    (inhabits : Inhabits Γ t T) (assigned : P Δ σ Γ) : Inhabits Δ (t.inst σ) T := by
  have seen : ∀ {Γ Δ : Scope} {σ : Assign} (t : Term), P Δ σ Γ →
      Conv (Δ.value (t.inst σ)) (Γ.value t) :=
    fun t assigned => Scope.value_subst (replaces.value assigned) t
  have motives : ∀ {Γ Δ : Scope} {σ : Assign} (motive : Term), P Δ σ Γ →
      Conv ((motive.inst σ.up).core.inst Δ.values.up) (motive.core.inst Γ.values.up) :=
    fun motive assigned => seen motive (replaces.bind assigned .hole)
  induction inhabits generalizing Δ σ with
  | var i found same =>
      rw [Term.inst_var]
      exact (replaces.var assigned found).conv same
  | univ same => exact .univ same
  | pi _ _ same dom_ih cod_ih =>
      rw [Term.inst_pi]
      exact .pi (dom_ih assigned) (cod_ih (replaces.bind assigned _)) same
  | lam _ same body_ih =>
      rw [Term.inst_lam]
      exact .lam (body_ih (replaces.bind assigned _)) same
  | app _ _ same fn_ih arg_ih =>
      exact .app (fn_ih assigned) (arg_ih assigned)
        (((Conv.refl _).close (seen _ assigned)).trans same)
  | sigma _ _ same fst_ih snd_ih =>
      rw [Term.inst_sigma]
      exact .sigma (fst_ih assigned) (snd_ih (replaces.bind assigned _)) same
  | pair _ _ same fst_ih snd_ih =>
      exact .pair (fst_ih assigned)
        ((snd_ih assigned).conv ((Conv.refl _).close (seen _ assigned).symm)) same
  | split _ _ _ same scrutinee_ih motive_ih body_ih =>
      rw [Term.inst_split]
      exact .split (scrutinee_ih assigned) (motive_ih (replaces.bind assigned _))
        ((body_ih (replaces.bind (replaces.bind assigned _) _)).conv
          ((motives _ assigned).symm.inst_same _))
        (((motives _ assigned).close (seen _ assigned)).trans same)
  | data arity same =>
      rw [Term.inst_data]
      exact .data arity same
  | ctr label proper found same => exact .ctr label proper found same
  | caseOf proper labels _ _ _ same value_ih motive_ih branches_ih =>
      rw [Term.inst_caseOf]
      refine .caseOf proper (by simpa using labels) (value_ih assigned)
        (motive_ih (replaces.bind assigned _)) (fun entry mem => ?_)
        (((motives _ assigned).close (seen _ assigned)).trans same)
      rw [Entries.toList_map, List.zip_map_left] at mem
      obtain ⟨entry, inside, rfl⟩ := List.mem_map.1 mem
      have ctr := (List.of_mem_zip inside).2
      exact (branches_ih entry inside assigned).conv (branchType_conv (proper.constructs ctr)
        (proper.constructs ctr) (.refl _) (motives _ assigned).symm (.refl _))
  | dup _ _ value_ih body_ih =>
      rw [Term.inst_dup]
      exact .dup (value_ih assigned) (body_ih (replaces.put assigned (seen _ assigned) _))
  | box _ same value_ih => exact .box (value_ih assigned) same
  | boxType _ same type_ih => exact .boxType (type_ih assigned) same

/-- Each variable of `Γ` becomes a variable of `Δ` that has the same type and is seen as it is. -/
def Scope.Renames (Δ : Scope) (σ : Assign) (Γ : Scope) : Prop :=
  ∀ i, ∃ j : Nat, σ i = .var j ∧ Δ.types j = Γ.types i ∧ Conv (Δ.values j) (Γ.values i)

/-- A renaming gives each variable a term of its type. -/
theorem Scope.Renames.replaces : Replaces Scope.Renames where
  value := by
    intro Δ σ Γ renames i
    obtain ⟨j, same, -, seen⟩ := renames i
    rwa [same, Scope.value_var]
  var := by
    intro Δ σ Γ i A renames found
    obtain ⟨j, same, types, -⟩ := renames i
    rw [same]
    exact .var j (types.trans found) (.refl _)
  bind := by
    intro Δ σ Γ renames A i
    cases i with
    | zero => exact ⟨0, rfl, rfl, .refl _⟩
    | succ i =>
        obtain ⟨j, same, types, seen⟩ := renames i
        refine ⟨j + 1, ?_, by rw [Scope.types_bind_succ, Scope.types_bind_succ, types], ?_⟩
        · rw [Assign.up_succ, same, Term.inst_var]
          rfl
        · rw [Scope.values_bind, Scope.values_bind, Assign.up_succ, Assign.up_succ]
          exact seen.raise
  put := by
    intro Δ σ Γ v w renames conv A i
    cases i with
    | zero => exact ⟨0, rfl, rfl, conv⟩
    | succ i =>
        obtain ⟨j, same, types, seen⟩ := renames i
        refine ⟨j + 1, ?_, types, seen⟩
        rw [Assign.up_succ, same, Term.inst_var]
        rfl

/-- A variable may stand for any core that is convertible to the one it stands for. -/
theorem Inhabits.put_conv {v w A : Term} (inhabits : Inhabits (Γ.put v A) t T) (conv : Conv v w) :
    Inhabits (Γ.put w A) t T := by
  have renames : (Γ.put w A).Renames (fun i => .var i) (Γ.put v A) := by
    intro i
    refine ⟨i, rfl, rfl, ?_⟩
    cases i with
    | zero => exact conv.symm
    | succ i => exact .refl _
  have same := inhabits.subst Scope.Renames.replaces renames
  rwa [Term.inst_self] at same

/-- Terms can be moved below a variable that stands for a core. -/
theorem Scope.renames_put (Γ : Scope) (v A : Term) : (Γ.put v A).Renames (Assign.raise 1) Γ :=
  fun i => ⟨i + 1, rfl, rfl, .refl _⟩

/-- Terms can be moved below a variable that stands for itself. -/
theorem Scope.renames_bind (Γ : Scope) (A : Term) :
    (Γ.bind A).Renames (Assign.raise 1) (Γ.inst (Assign.raise 1)) := by
  refine fun i => ⟨i + 1, rfl, rfl, ?_⟩
  rw [Scope.values_bind, Assign.up_succ]
  exact .refl _

/-- Each variable of `Γ` becomes a term of its type in `Δ` that is seen as it is. -/
structure Scope.Substitutes (Δ : Scope) (σ : Assign) (Γ : Scope) : Prop where
  value : ∀ i, Conv (Δ.value (σ i)) (Γ.values i)
  var : ∀ {i A}, Γ.types i = some A → Inhabits Δ (σ i) A

/-- A substitution gives each variable a term of its type. -/
theorem Scope.Substitutes.replaces : Replaces Scope.Substitutes where
  value := fun substitutes => substitutes.value
  var := fun substitutes => substitutes.var
  bind := by
    intro Δ σ Γ substitutes A
    constructor
    · intro i
      cases i with
      | zero => exact .refl _
      | succ i =>
          rw [Scope.values_bind, Assign.up_succ, Assign.up_succ, Scope.value_raise_bind]
          exact (substitutes.value i).raise
    · intro i B found
      cases i with
      | zero => exact .var 0 found (.refl _)
      | succ i =>
          rw [Scope.types_bind_succ, Option.map_eq_some_iff] at found
          obtain ⟨C, found, rfl⟩ := found
          rw [Assign.up_succ]
          exact ((substitutes.var found).inst _).subst Scope.Renames.replaces (Δ.renames_bind A)
  put := by
    intro Δ σ Γ v w substitutes conv A
    constructor
    · intro i
      cases i with
      | zero =>
          have here : (Δ.put v A).value (.var 0) = v := Scope.value_var _ 0
          rw [Assign.up_zero, here]
          exact conv
      | succ i =>
          rw [Assign.up_succ]
          exact (Scope.value_subst (Scope.Renames.replaces.value (Δ.renames_put v A)) _).trans
            (substitutes.value i)
    · intro i B found
      cases i with
      | zero => exact .var 0 found (.refl _)
      | succ i =>
          rw [Assign.up_succ]
          exact (substitutes.var found).subst Scope.Renames.replaces (Δ.renames_put v A)

/-- A term of its type can be put in place of a variable that stands for its core. -/
theorem Inhabits.close {value A : Term} (inhabits : Inhabits (Γ.put (Γ.value value) A) t T)
    (values : Inhabits Γ value A) : Inhabits Γ (t.inst (Assign.close value)) T := by
  refine inhabits.subst Scope.Substitutes.replaces ⟨fun i => ?_, fun {i B} found => ?_⟩
  · cases i with
    | zero => exact .refl _
    | succ i =>
        rw [Assign.close_succ, Scope.value_var]
        exact .refl _
  · cases i with
    | zero =>
        cases found
        exact values
    | succ i => exact .var i found (.refl _)

end BoxCalculus
