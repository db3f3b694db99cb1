import BoxCalculus.Kernel
import BoxCalculus.Proofs.FuelThreshold
import BoxCalculus.Proofs.Stability
import BoxCalculus.Proofs.SubjectReduction
import Mathlib.Data.List.Zip

/-!
# The checker accepts what is typed

If a solid term has a type in the typing relation, then the checker infers one that is convertible to
it, unless it runs out of fuel (`Yields.judge`).

`Yields x P` says that a computation of the checker runs out of fuel or gives a result with
`P`. It is closed under sequencing, so what the checker does is followed step by step.
-/

namespace BoxCalculus

/-- The meter of a computation that goes on and is not canceled. -/
def Meter.Going (m : Meter) : Prop :=
  m.canceled = false ∧ m.stopped = none

/-- `Yields x P` says that `x` runs out of fuel or gives a result with `P`. -/
def Yields (x : Checking α) (P : α → Prop) : Prop :=
  ∀ m : Meter, m.Going → x m = .error (.stopped .outOfFuel) ∨
    ∃ a m', x m = .ok (a, m') ∧ m'.Going ∧ P a

/-- `Represents u T` says that `u` is a normal form of `T`, up to names and marks. -/
structure Represents (u T : Term) : Prop where
  solid : u.solid = true
  normal : Normal .exact .empty u
  conv : Conv u.bare T

namespace Represents

variable {u v T A B : Term}

/-- A type rewrites to what represents it, up to names and marks. -/
theorem steps (represents : Represents u T) : Steps .exact .empty T u.bare := by
  obtain ⟨w, left, right⟩ := represents.conv
  rwa [(represents.normal.strip _).steps_eq left] at right

/-- What represents a type represents itself. -/
theorem self (represents : Represents u T) : Represents u u.bare :=
  ⟨represents.solid, represents.normal, .refl _⟩

/-- What represents a type represents each type that is convertible to it. -/
theorem trans (represents : Represents u T) (conv : Conv T A) : Represents u A :=
  ⟨represents.solid, represents.normal, represents.conv.trans conv⟩

/-- Normal forms of the same term are the same, up to names and marks. -/
theorem equal (first : Represents u T) (second : Represents v T) : u.equal v = true := by
  rw [Term.equal_iff_strip]
  exact (first.conv.trans second.conv.symm).eq_of_normal (first.normal.strip _)
    (second.normal.strip _)

/-- A part of what represents a type represents what rewrites to it. -/
theorem part (represents : Represents u T) {part : Nat × Term} (mem : part ∈ u.parts)
    (steps : Steps .exact .empty A part.2.bare) : Represents part.2 A :=
  ⟨(Term.solid_iff.1 represents.solid).2 part mem, (normal_iff.1 represents.normal).2 part mem,
    (Conv.of_steps steps).symm⟩

/-- A function type is represented by a function type. -/
theorem pi (represents : Represents u (.pi false "" A B)) :
    ∃ erased name a b, u = .pi erased name a b ∧ Represents a A ∧ Represents b B := by
  obtain ⟨a, b, doms, cods, same⟩ := Parted.pi_iff.1 (rigid_steps rfl represents.steps).1
  cases u with
  | pi erased name dom cod =>
      cases same
      exact ⟨erased, name, dom, cod, rfl, represents.part (.head _) doms,
        represents.part (.tail _ (.head _)) cods⟩
  | _ => cases same

/-- A pair type is represented by a pair type. -/
theorem sigma (represents : Represents u (.sigma false "" A B)) :
    ∃ erased name a b, u = .sigma erased name a b ∧ Represents a A ∧ Represents b B := by
  obtain ⟨a, b, fsts, snds, same⟩ := Parted.sigma_iff.1 (rigid_steps rfl represents.steps).1
  cases u with
  | sigma erased name fst snd =>
      cases same
      exact ⟨erased, name, fst, snd, rfl, represents.part (.head _) fsts,
        represents.part (.tail _ (.head _)) snds⟩
  | _ => cases same

/-- A box is represented by a box. -/
theorem box (represents : Represents u (.box A)) : ∃ a, u = .box a ∧ Represents a A := by
  obtain ⟨a, values, same⟩ := Parted.box_iff.1 (rigid_steps rfl represents.steps).1
  cases u with
  | box value =>
      cases same
      exact ⟨value, rfl, represents.part (.head _) values⟩
  | _ => cases same

/-- A box type is represented by a box type. -/
theorem boxType (represents : Represents u (.boxType A)) :
    ∃ a, u = .boxType a ∧ Represents a A := by
  obtain ⟨a, types, same⟩ := Parted.boxType_iff.1 (rigid_steps rfl represents.steps).1
  cases u with
  | boxType type =>
      cases same
      exact ⟨type, rfl, represents.part (.head _) types⟩
  | _ => cases same

/-- A declaration is represented by a declaration, whose constructors are rewritten one by one. -/
theorem data {ctrs : Entries} (represents : Represents u (.data "" A ctrs)) :
    ∃ name a entries, u = .data name a entries ∧
      ctrs.Related (Steps .exact .empty) (entries.strip fun _ => false) := by
  obtain ⟨a, entries, -, related, same⟩ := Parted.data_iff.1 (rigid_steps rfl represents.steps).1
  cases u with
  | data name type ctrs' =>
      cases same
      exact ⟨name, type, ctrs', rfl, related⟩
  | _ => cases same

/-- What is convertible to the universe is represented by it. -/
theorem of_univ (conv : Conv .univ T) : Represents .univ T :=
  ⟨rfl, normal_iff.2 ⟨rfl, by simp [Term.parts]⟩, conv⟩

/-- A function type of representatives represents the function type. -/
theorem of_pi {erased : Bool} {name : String} (dom : Represents u A) (cod : Represents v B) :
    Represents (.pi erased name u v) (.pi false "" A B) := by
  refine ⟨?_, normal_iff.2 ⟨rfl, ?_⟩, ?_⟩
  · simp [dom.solid, cod.solid]
  · simp [Term.parts, dom.normal, cod.normal]
  · exact .of_parts (Parted.pi_iff.2 ⟨_, _, dom.conv, cod.conv, rfl⟩)

/-- The box type of a representative represents the box type. -/
theorem of_boxType (type : Represents u A) : Represents (.boxType u) (.boxType A) := by
  refine ⟨type.solid, normal_iff.2 ⟨rfl, ?_⟩, ?_⟩
  · simp [Term.parts, type.normal]
  · exact .of_parts (Parted.boxType_iff.2 ⟨_, type.conv, rfl⟩)

/-- A normal form is one in every context. -/
theorem raise (represents : Represents u T) (n : Nat) :
    Represents (u.shift .exact n 0) (T.inst (Assign.raise n)) := by
  have room : ∀ t : Term, t.shift .exact n 0 = t.inst (Assign.raise n) :=
    fun t => Term.shift_eq_inst t n 0
  refine ⟨?_, fun v step => ?_, ?_⟩
  · rw [room]
    exact Term.solid_raise represents.solid n 0
  · -- A step of the term in the larger context would be one of the term itself.
    have back : (u.inst (Assign.raise n)).inst (fun i => .var (i - n : Nat)) = u := by
      have same : (fun i => (Assign.raise n i).inst fun i => .var (i - n : Nat)) =
          fun i : Nat => .var i := by
        funext i
        rw [Assign.raise, Term.inst_var, Nat.add_sub_cancel]
      rw [Term.inst_inst, same, Term.inst_self]
    have step' := step.inst (fun _ _ σ h => h.inst σ) fun i => .var (i - n : Nat)
    rw [room, back] at step'
    exact represents.normal _ step'
  · rw [Term.bare, Term.strip_shift, room]
    exact represents.conv.inst_same _

end Represents

/-- The mode does not ask for another type than `T`. -/
inductive Mode.Fits : Mode → Term → Prop where
  | infer (T : Term) : Fits .infer T
  | against {expected T : Term} : expected.solid = true → Conv expected.bare T →
      Fits (.against expected) T

/-- Putting a value into a term. -/
theorem Represents.close {body value B v : Term} (solid : body.solid = true)
    (conv : Conv body.bare B) (represents : Represents value v) :
    (body.subst .exact value 0).solid = true ∧
      Conv (body.subst .exact value 0).bare (B.inst (Assign.close v)) := by
  rw [Term.bare, Term.strip_subst, Term.subst_zero, Term.subst_zero]
  exact ⟨Term.solid_close solid represents.solid, conv.close represents.conv⟩

/-- The type of the body of a split does not depend on names and marks. -/
theorem strip_splitBodyType (erased : Bool) (sigma motive : Term) :
    (splitBodyType .exact erased sigma motive).bare = motive.bare.inst (Assign.paired sigma.bare) := by
  have motives : ∀ t : Term, t.shift .exact 2 1 = t.inst (Assign.raise 2).up :=
    fun t => Term.shift_eq_inst t 2 1
  have types : ∀ t : Term, t.shift .exact 2 0 = t.inst (Assign.raise 2) :=
    fun t => Term.shift_eq_inst t 2 0
  rw [splitBodyType, Term.bare, Term.strip_subst, Term.strip_shift, Term.strip, Term.strip_shift,
    Term.subst_zero, motives, types, Term.inst_inst]
  congr 1
  funext i
  cases i with
  | zero => exact Term.inst_var 0 _
  | succ i => exact Term.inst_var (i + 3) _

/-- The type that the body of a split has to have. -/
theorem Represents.splitBodyType {sigma A B motive : Term} (erased : Bool)
    (types : Represents sigma (.sigma false "" A B)) (solid : motive.solid = true) :
    (BoxCalculus.splitBodyType .exact erased sigma motive).solid = true ∧
      Conv (BoxCalculus.splitBodyType .exact erased sigma motive).bare
        (motive.bare.inst (Assign.paired (.sigma false "" A B))) := by
  constructor
  · have room := Term.solid_raise types.solid 2 0
    have room' := Term.solid_raise solid 2 1
    rw [← Term.shift_eq_inst] at room room'
    rw [BoxCalculus.splitBodyType, Term.subst_zero]
    refine Term.solid_close room' ?_
    rw [Term.solid_pair, Term.solid_var, Term.solid_var, Bool.and_true, Bool.and_true]
    exact room
  · rw [strip_splitBodyType]
    refine Conv.inst (.refl _) fun i => ?_
    cases i with
    | zero =>
        exact .of_parts (Parted.pair_iff.2
          ⟨_, _, _, types.conv.inst_same _, .refl _, .refl _, rfl⟩)
    | succ i => exact .refl _

/-- A constructor of a declaration is one of its normal form. -/
theorem Represents.find? {name label : String} {type type' A : Term} {ctrs entries : Entries}
    (decls : Represents (.data name type' entries) (.data "" type ctrs))
    (related : ctrs.Related (Steps .exact .empty) (entries.strip fun _ => false))
    (found : ctrs.find? label = some A) :
    ∃ ctrType, entries.find? label = some ctrType ∧ ctrType.solid = true ∧ Conv ctrType.bare A := by
  obtain ⟨_, found', steps⟩ := related.find? found
  rw [Entries.strip_eq_map, Entries.find?_map, Option.map_eq_some_iff] at found'
  obtain ⟨ctrType, found', rfl⟩ := found'
  have solid := decls.solid
  rw [Term.solid_data, Bool.and_eq_true, List.all_eq_true] at solid
  exact ⟨ctrType, found', solid.2 _ (Entries.mem_of_find? found'), (Conv.of_steps steps).symm⟩

/-- The head of a solid term is solid. -/
theorem Term.solid_head {t : Term} (solid : t.solid = true) : t.head.solid = true := by
  induction t with
  | app erased fn arg fn_ih =>
      rw [Term.solid_app, Bool.and_eq_true] at solid
      exact fn_ih solid.1
  | _ => exact solid

/-- The head of a normal term is normal. -/
theorem Normal.head {ar : Arith} {env : Env} {t : Term} (normal : Normal ar env t) :
    Normal ar env t.head := by
  induction t with
  | app erased fn arg fn_ih => exact fn_ih (normal.part (.head _))
  | _ => exact normal

/-- The type of a value of a declared type starts with the declaration. -/
theorem Represents.head {u type : Term} {ctrs : Entries} {args : List (Bool × Term)}
    (represents : Represents u ((Term.data "" type ctrs).apply args)) :
    Represents u.spine.1 (.data "" type ctrs) := by
  have rigid : ((Term.data "" type ctrs).apply args).rigid = true := Term.rigid_apply ..
  have conv := represents.conv.head (rigid_steps rigid represents.steps).2 rigid
  rw [Term.head_apply, ← Term.spine_fst, Term.strip_spine] at conv
  rw [Term.spine_fst] at conv ⊢
  exact ⟨Term.solid_head represents.solid, represents.normal.head, conv⟩

/-- The type of a branch does not depend on names and marks. -/
theorem strip_branchType (type motive value : Term) :
    (branchType .exact type motive value).bare =
      branchType .exact type.bare motive.bare value.bare := by
  induction type generalizing motive value with
  | pi erased name dom cod dom_ih cod_ih =>
      simp only [branchType, Term.strip, cod_ih, Term.strip_shift]
  | _ => exact Term.strip_subst ..

/-- The type of a branch is solid if what it is made of is. -/
theorem solid_branchType {type motive value : Term} (types : type.solid = true)
    (motives : motive.solid = true) (values : value.solid = true) :
    (branchType .exact type motive value).solid = true := by
  induction type generalizing motive value with
  | pi erased name dom cod dom_ih cod_ih =>
      rw [Term.solid_pi, Bool.and_eq_true] at types
      rw [branchType_pi, Term.solid_pi, types.1, Bool.true_and]
      refine cod_ih types.2 (Term.solid_raise motives 1 1) ?_
      rw [Term.solid_app, Term.solid_var, Bool.and_true]
      exact Term.solid_raise values 1 0
  | _ =>
      have closed := Term.solid_close motives values
      rw [← Term.subst_zero] at closed
      exact closed

/-- The type of a branch, made from the normal form of the type of its constructor. -/
theorem Represents.branchType {u declared motive A type : Term} {ctrs : Entries} (label : String)
    (types : Represents u (A.inst (Assign.close (.data "" type ctrs))))
    (decls : Represents declared (.data "" type ctrs)) (telescope : Telescope 0 A)
    (solid : motive.solid = true) :
    (BoxCalculus.branchType .exact u motive (.ctr label declared)).solid = true ∧
      Conv (BoxCalculus.branchType .exact u motive (.ctr label declared)).bare
        (BoxCalculus.branchType .exact (A.inst (Assign.close (.data "" type ctrs))) motive.bare
          (.ctr label (.data "" type ctrs))) := by
  refine ⟨solid_branchType types.solid solid decls.solid, ?_⟩
  have constructs : Constructs (A.inst (Assign.close (.data "" type ctrs))) :=
    telescope.constructs ⟨_, _, Assign.close_zero _⟩
  rw [strip_branchType]
  exact branchType_conv (constructs.steps types.steps) constructs types.conv (.refl _)
    (.of_parts (Parted.ctr_iff.2 ⟨_, decls.conv, rfl⟩))

/-- A branch that is checked with a constructor of a normal form belongs to a constructor of the
declaration. -/
theorem exists_mem_zip_strip {ctrs entries branches : Entries} {pair : (String × Term) × (String × Term)}
    (related : ctrs.Related (Steps .exact .empty) (entries.strip fun _ => false))
    (mem : pair ∈ branches.toList.zip entries.toList) :
    ∃ A, ((pair.1.1, pair.1.2.bare), (pair.2.1, A)) ∈
        (branches.strip fun _ => false).toList.zip ctrs.toList ∧
      Steps .exact .empty A pair.2.2.bare := by
  have mem' : ((pair.2.1, pair.2.2.bare), (pair.1.1, pair.1.2.bare)) ∈
      (entries.strip fun _ => false).toList.zip (branches.strip fun _ => false).toList := by
    rw [Entries.strip_eq_map, Entries.strip_eq_map, Entries.toList_map, Entries.toList_map,
      List.zip_map, ← List.zip_swap, List.map_map]
    exact List.mem_map.2 ⟨pair, mem, rfl⟩
  obtain ⟨A, inside, steps⟩ := related.exists_mem_zip mem'
  rw [← List.zip_swap] at inside
  obtain ⟨⟨_, _⟩, inside, same⟩ := List.mem_map.1 inside
  cases same
  exact ⟨A, inside, steps⟩

/-- No label differs from itself. -/
theorem mismatchedLabel?_self (labels : List String) : mismatchedLabel? labels labels = none := by
  simp [mismatchedLabel?, List.zip_eq_zipWith, List.zipWith_self]

namespace Yields

/-- A result with the property is yielded. -/
theorem pure {P : α → Prop} {a : α} (holds : P a) : Yields (Pure.pure a : Checking α) P :=
  fun m going => .inr ⟨a, m, rfl, going, holds⟩

/-- A computation yields what the rest of it yields on each result of its first half. -/
theorem bind {P : α → Prop} {Q : β → Prop} {x : Checking α} {f : α → Checking β} (first : Yields x P)
    (next : ∀ a, P a → Yields (f a) Q) : Yields (x >>= f) Q := by
  intro m going
  rw [Checking.bind_apply]
  rcases first m going with out | ⟨a, m', out, going', holds⟩
  · rw [out]
    exact .inl rfl
  · rw [out]
    exact next a holds m' going'

/-- A weaker property is yielded, too. -/
theorem imp {P Q : α → Prop} {x : Checking α} (yields : Yields x P) (weaker : ∀ a, P a → Q a) :
    Yields x Q :=
  fun m going => (yields m going).imp id fun ⟨a, m', out, going', holds⟩ =>
    ⟨a, m', out, going', weaker a holds⟩

/-- The normal form of a solid term, unless the fuel runs out. -/
theorem normal {t T : Term} (solid : t.solid = true) (conv : Conv t.bare T) :
    Yields (normal .exact .empty t) (Represents · T) := by
  intro m going
  generalize reduced : reduce .exact .empty t m = result
  obtain ⟨u, m'⟩ := result
  have run := reduce_iff.1 reduced
  have steps : Steps .exact .empty t u := by simpa using run.steps
  have smooth := run.smooth (by simpa using solid) ⟨going.1, .inl going.2⟩
  rcases smooth with ⟨uncanceled, running | out⟩
  · refine .inr ⟨u, m', ?_, ⟨uncanceled, running⟩, steps.solid solid, ?_, ?_⟩
    · simp [BoxCalculus.normal, reduced, running]
    · simpa using run.normal running
    · exact (Conv.of_steps (steps.strip _)).symm.trans conv
  · exact .inl (by simp [BoxCalculus.normal, reduced, out])

/-- A type that represents the universe is found to be the universe. -/
theorem isUniverse {t : Term} (represents : Represents t .univ) :
    Yields (isUniverse .exact .empty t) (· = true) := by
  refine (normal represents.solid represents.conv).bind fun u actual => ?_
  exact (normal rfl (.refl _)).bind fun v expected => pure (actual.equal expected)

/-- A type that fits the mode is accepted. -/
theorem settle {mode : Mode} {t T actual : Term} {ctx : Context} (fits : mode.Fits T)
    (represents : Represents actual T) :
    Yields (mode.settle .exact .empty t actual ctx) (Represents · T) := by
  cases fits with
  | infer => exact pure represents
  | against solid conv =>
      refine (normal represents.solid represents.conv).bind fun actual first => ?_
      refine (normal solid conv).bind fun expected second => ?_
      rw [if_pos (first.equal second)]
      exact pure first

/-- A term that is convertible to a declaration is found to be one. -/
theorem declaration {t type : Term} {ctrs : Entries} {ctx : Context} (solid : t.solid = true)
    (conv : Conv t.bare (.data "" type ctrs)) :
    Yields (declaration .exact .empty t ctx) fun declared => ∃ name type' entries,
      declared = (.data name type' entries, entries) ∧
        Represents (.data name type' entries) (.data "" type ctrs) ∧
        ctrs.Related (Steps .exact .empty) (entries.strip fun _ => false) := by
  refine (normal solid conv).bind fun nf represents => ?_
  obtain ⟨name, type', entries, rfl, related⟩ := represents.data
  exact pure ⟨name, type', entries, rfl, represents, related⟩

/-- A condition that has to hold before the computation goes on. -/
theorem guard {P : α → Prop} {yes : Bool} {e : TypeError} {rest : Checking α} (holds : yes = true)
    (next : Yields rest P) :
    Yields (if (!yes) = true then Checking.fail e >>= fun _ : Unit => rest else rest) P := by
  rw [holds]
  exact next

/-- The normal form of a term with a value put in. -/
theorem closed {body value B v : Term} (solid : body.solid = true) (conv : Conv body.bare B)
    (represents : Represents value v) :
    Yields (BoxCalculus.normal .exact .empty (body.subst .exact value 0))
      (Represents · (B.inst (Assign.close v))) := by
  obtain ⟨solid, conv⟩ := represents.close solid conv
  exact normal solid conv

/-- The branches of a case analysis are checked one by one. -/
theorem entries {declared motive : Term} {ctx : Context} : ∀ {branches ctrs : Entries},
    (∀ pair ∈ branches.toList.zip ctrs.toList,
      Yields (BoxCalculus.normal .exact .empty (pair.2.2.subst .exact declared 0) >>= fun type =>
        pair.1.2.judge .exact .empty ctx
          (.against (branchType .exact type motive (.ctr pair.2.1 declared)))) fun _ => True) →
    Yields (branches.judge .exact .empty ctrs declared motive ctx) fun _ => True
  | .nil, _, _ => pure trivial
  | .cons .., .nil, _ => pure trivial
  | .cons label branch rest, .cons label' ctrType ctrs, each => by
      rw [Entries.judge]
      simp only [Entries.toList, List.zip_cons_cons, List.forall_mem_cons] at each
      rw [← bind_assoc]
      exact each.1.bind fun _ _ => entries each.2

end Yields

/-- The types of the variables, the innermost first. -/
def Context.types (ctx : Context) : List Term :=
  ctx.bindings.map fun binding => binding.type.bare

/-- The types in the context are solid and normal. -/
def Context.Fine (ctx : Context) : Prop :=
  ∀ binding ∈ ctx.bindings, Represents binding.type binding.type.bare

/-- A fine context can be extended by a type that represents another. -/
theorem Context.Fine.extend {ctx : Context} {u T : Term} (fine : ctx.Fine)
    (represents : Represents u T) (name : String) : (ctx.extend name u).Fine :=
  List.forall_mem_cons.2 ⟨represents.self, fine⟩

/-- A variable is looked up with its type. -/
theorem Context.lookup_types {ctx : Context} {i : Nat} {A : Term} (fine : ctx.Fine)
    (found : ctx.types[i]? = some A) :
    ∃ binding, ctx.lookup .exact i = some binding ∧
      Represents binding.type (A.inst (Assign.raise (i + 1))) := by
  rw [Context.types, List.getElem?_map, Option.map_eq_some_iff] at found
  obtain ⟨binding, here, rfl⟩ := found
  refine ⟨⟨binding.name, binding.type.shift .exact (i + 1 : Nat) 0⟩, ?_,
    (fine binding (List.mem_of_getElem? here)).raise (i + 1)⟩
  simp [Context.lookup, here, Arith.add, Arith.exact]

/-- What is looked up is a variable with its type. -/
theorem Context.types_of_lookup {ctx : Context} {index : Int} {binding : Binding} (fine : ctx.Fine)
    (found : ctx.lookup .exact index = some binding) :
    ∃ (i : Nat) (A : Term), index = i ∧ ctx.types[i]? = some A ∧
      Represents binding.type (A.inst (Assign.raise (i + 1))) := by
  have found' := found
  rw [Context.lookup, Option.ite_none_right_eq_some, Option.map_eq_some_iff] at found'
  obtain ⟨nonneg, outer, here, -⟩ := found'
  obtain ⟨i, rfl⟩ := Int.eq_ofNat_of_zero_le nonneg
  have types : ctx.types[i]? = some outer.type.bare := by
    rw [Context.types, List.getElem?_map, ← Int.toNat_natCast i, here]
    rfl
  obtain ⟨_, looked, represents⟩ := Context.lookup_types fine types
  cases looked.symm.trans found
  exact ⟨i, _, rfl, types, represents⟩

variable {t T : Term} {ctx : Context} {mode : Mode}

/-- The checker infers a type for what has one, unless it runs out of fuel. -/
theorem Yields.judge (fine : ctx.Fine) (fits : mode.Fits T) (solid : t.solid = true)
    (typed : Typed ctx.types t.bare T) :
    Yields (t.judge .exact .empty ctx mode) (Represents · T) := by
  induction t generalizing ctx mode T with
  | hole => cases solid
  | var index =>
      simp only [Term.strip] at typed
      cases typed with
      | var i found same =>
          obtain ⟨binding, looked, represents⟩ := Context.lookup_types fine found
          rw [Term.judge, looked]
          exact settle fits (represents.trans same)
  | univ =>
      simp only [Term.strip] at typed
      cases typed with
      | univ same => exact settle fits (.of_univ same)
  | ref name => cases typed
  | pi erased name dom cod dom_ih cod_ih =>
      simp only [Term.solid_pi, Bool.and_eq_true] at solid
      simp only [Term.strip] at typed
      cases typed with
      | pi dom_typed cod_typed same =>
          unfold Term.judge
          refine (dom_ih fine (.infer _) solid.1 dom_typed).bind fun _ domType => ?_
          refine (isUniverse domType).bind fun _ yes => guard yes ?_
          refine (normal solid.1 (.refl _)).bind fun dom' doms => ?_
          refine (cod_ih (fine.extend doms name) (.infer _) solid.2
            (cod_typed.context_cons doms.conv.symm)).bind fun _ codType => ?_
          exact (isUniverse codType).bind fun _ yes => guard yes (settle fits (.of_univ same))
  | lam erased name dom body _ body_ih =>
      simp only [Term.solid_lam, Bool.and_eq_true] at solid
      simp only [Term.strip] at typed
      cases typed with
      | lam body_typed same =>
          unfold Term.judge
          simp only [(Term.solid_iff.1 solid.1).1, Bool.false_eq_true, if_false]
          refine (normal solid.1 (.refl _)).bind fun dom' doms => ?_
          refine (body_ih (fine.extend doms name) (.infer _) solid.2
            (body_typed.context_cons doms.conv.symm)).bind fun cod cods => ?_
          exact settle fits ((Represents.of_pi doms cods).trans same)
  | app erased fn arg fn_ih arg_ih =>
      simp only [Term.solid_app, Bool.and_eq_true] at solid
      simp only [Term.strip] at typed
      cases typed with
      | app fn_typed arg_typed same =>
          unfold Term.judge
          refine (fn_ih fine (.infer _) solid.1 fn_typed).bind fun _ fnType => ?_
          refine (normal fnType.solid fnType.conv).bind fun _ fnType => ?_
          obtain ⟨_, _, dom, cod, rfl, doms, cods⟩ := fnType.pi
          refine (arg_ih fine (.against doms.solid doms.conv) solid.2 arg_typed).bind fun _ _ => ?_
          refine (normal solid.2 (.refl _)).bind fun argument args => ?_
          refine (closed cods.solid cods.conv args).bind fun _ result => ?_
          exact settle fits (result.trans same)
  | sigma erased name fst snd fst_ih snd_ih =>
      simp only [Term.solid_sigma, Bool.and_eq_true] at solid
      simp only [Term.strip] at typed
      cases typed with
      | sigma fst_typed snd_typed same =>
          unfold Term.judge
          refine (fst_ih fine (.infer _) solid.1 fst_typed).bind fun _ fstType => ?_
          refine (isUniverse fstType).bind fun _ yes => guard yes ?_
          refine (normal solid.1 (.refl _)).bind fun fst' fsts => ?_
          refine (snd_ih (fine.extend fsts name) (.infer _) solid.2
            (snd_typed.context_cons fsts.conv.symm)).bind fun _ sndType => ?_
          exact (isUniverse sndType).bind fun _ yes => guard yes (settle fits (.of_univ same))
  | pair erased type fst snd _ fst_ih snd_ih =>
      simp only [Term.solid_pair, Bool.and_eq_true] at solid
      simp only [Term.strip] at typed
      cases typed with
      | pair form fst_typed snd_typed same =>
          unfold Term.judge
          refine (normal solid.1.1 form).bind fun _ types => ?_
          obtain ⟨_, _, fstType, sndType, rfl, fsts, snds⟩ := types.sigma
          refine (fst_ih fine (.against fsts.solid fsts.conv) solid.1.2 fst_typed).bind fun _ _ => ?_
          refine (normal solid.1.2 (.refl _)).bind fun component fsts => ?_
          obtain ⟨snd_solid, snd_conv⟩ := fsts.close snds.solid snds.conv
          refine (snd_ih fine (.against snd_solid snd_conv) solid.2 snd_typed).bind fun _ _ => ?_
          exact settle fits (types.trans (form.symm.trans same))
  | split erased scrutinee name motive fstName sndName body scrutinee_ih motive_ih body_ih =>
      simp only [Term.solid_split, Bool.and_eq_true] at solid
      simp only [Term.strip] at typed
      cases typed with
      | split scrutinee_typed motive_typed body_typed same =>
          unfold Term.judge
          refine (scrutinee_ih fine (.infer _) solid.1.1 scrutinee_typed).bind fun _ types => ?_
          refine (normal types.solid types.conv).bind fun _ types => ?_
          obtain ⟨_, _, fstType, sndType, rfl, fsts, snds⟩ := types.sigma
          refine (motive_ih (fine.extend types name) (.infer _) solid.1.2
            (motive_typed.context_cons types.conv.symm)).bind fun _ sort => ?_
          refine (isUniverse sort).bind fun _ yes => guard yes ?_
          obtain ⟨body_solid, body_conv⟩ := types.splitBodyType erased solid.1.2
          refine (body_ih ((fine.extend fsts fstName).extend snds sndName)
            (.against body_solid body_conv) solid.2 (body_typed.context
              (.cons snds.conv (.cons fsts.conv (List.forall₂_same.2 fun _ _ => .refl _))))).bind
            fun _ _ => ?_
          refine (normal solid.1.1 (.refl _)).bind fun value values => ?_
          refine (closed solid.1.2 (.refl _) values).bind fun _ result => ?_
          exact settle fits (result.trans same)
  | data name type ctrs =>
      simp only [Term.solid_data, Bool.and_eq_true] at solid
      simp only [Term.strip] at typed
      cases typed with
      | data same =>
          unfold Term.judge
          exact (normal solid.1 same).bind fun _ result => settle fits result
  | ctr label type =>
      simp only [Term.strip] at typed
      cases typed with
      | ctr _ declared proper found same =>
          rw [Term.solid_ctr] at solid
          unfold Term.judge
          refine (declaration solid declared).bind ?_
          rintro _ ⟨name, type', entries, rfl, decls, related⟩
          obtain ⟨ctrType, found', ctr_solid, ctr_conv⟩ := decls.find? related found
          simp only [found']
          exact (closed ctr_solid ctr_conv decls).bind fun _ result =>
            settle fits (result.trans same)
  | caseOf type value name motive branches _ value_ih motive_ih branches_ih =>
      simp only [Term.solid_caseOf, Bool.and_eq_true, List.all_eq_true] at solid
      simp only [Term.strip] at typed
      cases typed with
      | caseOf declared proper labels value_typed motive_typed branches_typed same =>
          unfold Term.judge
          refine (declaration solid.1.1.1 declared).bind ?_
          rintro _ ⟨dataName, type', entries, rfl, decls, related⟩
          have labels' : branches.labels = entries.labels := by
            have := labels.trans related.1
            simpa [Entries.strip_eq_map] using this
          simp only [labels', mismatchedLabel?_self]
          refine (value_ih fine (.infer _) solid.1.1.2 value_typed).bind fun _ types => ?_
          refine (normal types.solid types.conv).bind fun _ types => guard (types.head.equal decls) ?_
          refine (motive_ih (fine.extend types name) (.infer _) solid.1.2
            (motive_typed.context_cons types.conv.symm)).bind fun _ sort => ?_
          refine (isUniverse sort).bind fun _ yes => guard yes ?_
          refine (Yields.entries fun pair mem => ?_).bind fun _ _ => ?_
          · have ctr_solid := decls.solid
            simp only [Term.solid_data, Bool.and_eq_true, List.all_eq_true] at ctr_solid
            obtain ⟨A, inside, steps⟩ := exists_mem_zip_strip related mem
            refine (closed (ctr_solid.2 _ (List.of_mem_zip mem).2) (Conv.of_steps steps).symm
              decls).bind fun _ ctrType => ?_
            obtain ⟨branch_solid, branch_conv⟩ := ctrType.branchType _ decls
              (proper _ (List.of_mem_zip inside).2) solid.1.2
            refine (branches_ih _ (List.of_mem_zip mem).1 fine (.against branch_solid branch_conv)
              (solid.2 _ (List.of_mem_zip mem).1) (branches_typed _ inside)).imp fun _ _ => trivial
          · refine (normal solid.1.1.2 (.refl _)).bind fun scrutinee values => ?_
            refine (closed solid.1.2 (.refl _) values).bind fun _ result => ?_
            exact settle fits (result.trans same)
  | dup name value body value_ih body_ih =>
      simp only [Term.solid_dup, Bool.and_eq_true] at solid
      simp only [Term.strip] at typed
      unfold Term.judge
      cases typed with
      | unbox value_typed body_typed box same =>
          refine (value_ih fine (.infer _) solid.1 value_typed).bind fun _ types => ?_
          refine (normal types.solid types.conv).bind fun _ types => ?_
          obtain ⟨content, rfl, contents⟩ := types.boxType
          refine (body_ih (fine.extend contents name) (.infer _) solid.2
            (body_typed.context_cons contents.conv.symm)).bind fun _ bodyType => ?_
          refine (normal solid.1 box).bind fun _ values => ?_
          obtain ⟨inner, rfl, inners⟩ := values.box
          refine (closed bodyType.solid bodyType.conv inners).bind fun _ result => ?_
          exact settle fits (result.trans same)
      | float value_typed body_typed =>
          refine (value_ih fine (.infer _) solid.1 value_typed).bind fun _ types => ?_
          refine (normal types.solid types.conv).bind fun _ types => ?_
          obtain ⟨content, rfl, contents⟩ := types.boxType
          refine (body_ih (fine.extend contents name) (.infer _) solid.2
            (body_typed.context_cons contents.conv.symm)).bind fun _ bodyType => ?_
          refine (normal solid.1 (.refl _)).bind fun nf values => ?_
          -- The type does not depend on what is put in, whether it is a box's content or the value.
          split
          case' h_1 => have unboxed := values.part (.head _) .refl
          case' h_2 => have unboxed := values
          all_goals
            refine (closed bodyType.solid bodyType.conv unboxed).bind fun _ result => ?_
            rw [Term.inst_raise_close] at result
            exact settle fits result
  | box value value_ih =>
      simp only [Term.strip] at typed
      cases typed with
      | box value_typed same =>
          unfold Term.judge
          refine (value_ih fine (.infer _) solid value_typed).bind fun _ content => ?_
          exact settle fits ((Represents.of_boxType content).trans same)
  | boxType type type_ih =>
      simp only [Term.strip] at typed
      cases typed with
      | boxType type_typed same =>
          unfold Term.judge
          refine (type_ih fine (.infer _) solid type_typed).bind fun _ sort => ?_
          exact (isUniverse sort).bind fun _ yes => guard yes (settle fits (.of_univ same))

end BoxCalculus
