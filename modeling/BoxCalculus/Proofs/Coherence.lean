import BoxCalculus.Proofs.SubstitutionAlgebra
import BoxCalculus.Typing.Judgement

/-!
# Rules and types fit together

A case analysis computes by applying a branch to the arguments of a constructor, and a split by putting
the components of a pair into its body. The types that branches and bodies have to have go along with
this. Passing arguments to the type of a branch leads to the motive at the constructor applied to them,
through the domains of the constructor's own type (`branch_coherence`). Putting components into the type
of a body leads to the motive at their pair (`split_coherence`).

Both types are the motive, moved below some binders, at a value that is made from the variables of these
binders. Closing the binders with arguments undoes the move and puts the arguments into the value
(`Term.closeAll_motive`).
-/

namespace BoxCalculus

/-- A binder of a function type. Its domain is in scope of the binders before it. -/
structure Binder where
  erased : Bool
  name : String
  dom : Term

namespace Term

/-- The function type with binders in front of a result. -/
def pis : List Binder → Term → Term
  | [], result => result
  | binder :: binders, result => pi binder.erased binder.name binder.dom (pis binders result)

/-- Pass arguments to a function type, whose leading binders are closed one after the other. The domains
that the arguments meet are returned in order, with what is left of the type. -/
def passAll (ar : Arith) : Term → List Term → Option (List Term × Term)
  | t, [] => some ([], t)
  | pi _ _ dom cod, arg :: args =>
      ((cod.subst ar arg 0).passAll ar args).map fun rest => (dom :: rest.1, rest.2)
  | _, _ :: _ => none

/-- Close as many binders as there are arguments, the outermost first. There are `inner` more binders
inside of them, which stay. -/
def closeAll (ar : Arith) (inner : Nat) : Term → List Term → Term
  | t, [] => t
  | t, arg :: args => (t.subst ar arg (inner + args.length : Nat)).closeAll ar inner args

/-- The variables of some binders, the outermost first. -/
def ownVars : Nat → List Term
  | 0 => []
  | n + 1 => var n :: ownVars n

/-- Closing binders that room has been made for. -/
theorem closeAll_shift (t : Term) (inner : Nat) (args : List Term) :
    (t.shift .exact args.length inner).closeAll .exact inner args = t := by
  induction args with
  | nil => exact shift_zero t inner
  | cons arg args ih =>
      -- The room for the outermost binder lies at the outer edge of the room for the others.
      have apart : t.shift .exact (args.length + 1 : Nat) inner =
          (t.shift .exact args.length inner).shift .exact 1 (inner + args.length : Nat) := by
        rw [shift_shift t (by omega) (by omega)]
        rfl
      show ((t.shift .exact (args.length + 1 : Nat) inner).subst .exact arg
        (inner + args.length : Nat)).closeAll .exact inner args = t
      rw [apart, subst_shift, ih]

/-- Closing binders around a binder that has been closed. -/
theorem closeAll_subst (body value : Term) (args : List Term) :
    (body.subst .exact value 0).closeAll .exact 0 args =
      (body.closeAll .exact 1 args).subst .exact (value.closeAll .exact 0 args) 0 := by
  induction args generalizing body value with
  | nil => rfl
  | cons arg args ih =>
      have closed := subst_subst body value arg 0 args.length
      rw [Nat.add_zero] at closed
      rw [closeAll, closeAll, closeAll, Nat.zero_add, Nat.add_comm 1, ← ih]
      exact congrArg (closeAll .exact 0 · args) closed

/-- Closing the binders below which a motive has been moved. -/
theorem closeAll_motive (motive value : Term) (args : List Term) :
    ((motive.shift .exact args.length 1).subst .exact value 0).closeAll .exact 0 args =
      motive.subst .exact (value.closeAll .exact 0 args) 0 := by
  have back : (motive.shift .exact args.length 1).closeAll .exact 1 args = motive :=
    closeAll_shift motive 1 args
  rw [closeAll_subst, back]

/-- Binders are closed in the head and in the arguments of a spine. -/
theorem closeAll_apply (head : Term) (spine : List (Bool × Term)) (inner : Nat) (args : List Term) :
    (head.apply spine).closeAll .exact inner args = (head.closeAll .exact inner args).apply
      (spine.map fun arg => (arg.1, arg.2.closeAll .exact inner args)) := by
  induction args generalizing head spine with
  | nil => simp [closeAll]
  | cons arg args ih =>
      have applied : ∀ target : Nat, (head.apply spine).subst .exact arg target =
          (head.subst .exact arg target).apply
            (spine.map fun a => (a.1, a.2.subst .exact arg target)) := by
        intro target
        simp only [subst_eq_inst, inst_apply]
      rw [closeAll, applied, ih, List.map_map]
      rfl

/-- A variable of the binders inside of the one that is closed stays. -/
theorem subst_ownVars (arg : Term) {m n : Nat} (inside : m ≤ n) :
    (ownVars m).map (fun v => v.subst .exact arg n) = ownVars m := by
  induction m with
  | zero => rfl
  | succ m ih =>
      have other : ¬ (m : Int) = (n : Int) + (0 : Nat) := by omega
      have below : ¬ (n : Int) + (0 : Nat) < (m : Int) := by omega
      have stays : (var m).subst .exact arg n = var m := by
        rw [subst_exact, bindVars, if_neg other, if_neg below]
      rw [ownVars, List.map_cons, stays, ih (by omega)]

/-- The variables of the binders become the arguments. -/
theorem closeAll_ownVars (args : List Term) :
    (ownVars args.length).map (fun v => v.closeAll .exact 0 args) = args := by
  induction args with
  | nil => rfl
  | cons arg args ih =>
      have here : (var args.length).closeAll .exact 0 (arg :: args) = arg := by
        rw [closeAll, Nat.zero_add, subst_exact, bindVars, if_pos (by omega)]
        simpa using closeAll_shift arg 0 args
      have inside := congrArg (List.map fun v => v.closeAll .exact 0 args)
        (subst_ownVars arg (Nat.le_refl args.length))
      rw [List.map_map, ih] at inside
      rw [List.length_cons, ownVars, List.map_cons, here]
      refine congrArg (arg :: ·) ?_
      simp only [closeAll, Nat.zero_add]
      exact inside

/-- Closing a binder around a function type. -/
theorem subst_pis (binders : List Binder) (result arg : Term) (target : Nat) :
    (pis binders result).subst .exact arg target =
      pis (binders.mapIdx fun i b => { b with dom := b.dom.subst .exact arg (target + i : Nat) })
        (result.subst .exact arg (target + binders.length : Nat)) := by
  induction binders generalizing target with
  | nil => rfl
  | cons binder binders ih =>
      have below : (pis (binder :: binders) result).subst .exact arg target =
          pi binder.erased binder.name (binder.dom.subst .exact arg target)
            ((pis binders result).subst .exact arg (target + 1 : Nat)) := by
        rw [pis, subst_eq_inst, subst_eq_inst, subst_eq_inst, inst_pi]
        rfl
      have next : ∀ i, target + 1 + i = target + (i + 1) := by omega
      rw [below, ih, List.mapIdx_cons, pis, List.length_cons]
      simp only [next, Nat.add_zero]

/-- What passing arguments to a function type leads through and to. -/
theorem passAll_pis {binders : List Binder} {args : List Term} (result : Term)
    (same : args.length = binders.length) :
    (pis binders result).passAll .exact args =
      some (binders.mapIdx fun i binder => binder.dom.closeAll .exact 0 (args.take i),
        result.closeAll .exact 0 args) := by
  induction args generalizing binders result with
  | nil =>
      obtain rfl := List.length_eq_zero_iff.1 same.symm
      rfl
  | cons arg args ih =>
      obtain _ | ⟨binder, binders⟩ := binders
      · cases same
      · have same' : args.length = binders.length := Nat.succ.inj same
        have closed := subst_pis binders result arg 0
        have domains : ∀ i (inside : i < binders.length),
            (binders[i].dom.subst .exact arg (0 + i : Nat)).closeAll .exact 0 (args.take i) =
              binders[i].dom.closeAll .exact 0 ((arg :: args).take (i + 1)) := by
          intro i inside
          have count : (args.take i).length = i := List.length_take_of_le (by omega)
          rw [List.take_succ_cons, closeAll, count]
        rw [pis, passAll, show (0 : Int) = (0 : Nat) from rfl, closed, ih _ (by simpa using same'),
          Option.map_some, List.mapIdx_mapIdx, List.mapIdx_cons, closeAll, same']
        refine congrArg (fun doms => some (binder.dom :: doms, _)) ?_
        exact List.mapIdx_eq_mapIdx_iff.2 domains

/-- The type of a branch has the binders of the constructor's type, and below them the motive at the
constructor applied to their variables. -/
theorem branchType_pis (binders : List Binder) {result : Term}
    (last : ∀ erased name dom cod, result ≠ pi erased name dom cod) (motive value : Term) :
    branchType .exact (pis binders result) motive value =
      pis binders ((motive.shift .exact binders.length 1).subst .exact
        ((value.shift .exact binders.length 0).apply
          ((binders.map Binder.erased).zip (ownVars binders.length))) 0) := by
  induction binders generalizing motive value with
  | nil =>
      have done : branchType .exact result motive value = motive.subst .exact value 0 := by
        cases result with
        | pi erased name dom cod => exact absurd rfl (last erased name dom cod)
        | _ => rfl
      refine done.trans ?_
      show _ = (motive.shift .exact (0 : Nat) 1).subst .exact (value.shift .exact (0 : Nat) 0) 0
      rw [show ((0 : Nat) : Int) = 0 from rfl, shift_zero, shift_zero]
  | cons binder binders ih =>
      have moved : ∀ (t : Term) (cutoff : Int),
          (t.shift .exact 1 cutoff).shift .exact binders.length cutoff =
            t.shift .exact (binders.length + 1 : Nat) cutoff := by
        intro t cutoff
        rw [shift_shift t (by omega) (by omega), Int.add_comm]
        rfl
      have own : (var 0).shift .exact binders.length 0 = var binders.length := by
        simpa using shift_var 0 binders.length
      have applied : (app binder.erased (value.shift .exact 1 0) (var 0)).shift .exact binders.length 0 =
          app binder.erased (value.shift .exact (binders.length + 1 : Nat) 0) (var binders.length) := by
        rw [← moved, ← own]
        rfl
      rw [pis, branchType, ih, moved, applied]
      rfl

end Term

/-- Passing arguments to the type of a branch, one for each binder of the constructor's type, leads to
the motive at the constructor applied to them, with the erasure marks of the binders. The domains on the
way are those of the constructor's type, each with the arguments before it put in, and they are what
passing the arguments to the constructor's type leads through as well. -/
theorem branch_coherence (binders : List Binder) (result motive value : Term) (args : List Term)
    (last : ∀ erased name dom cod, result ≠ .pi erased name dom cod)
    (same : args.length = binders.length) :
    let type := Term.pis binders result
    let built := value.apply ((binders.map Binder.erased).zip args)
    let domains := fun ar => binders.mapIdx fun i binder => binder.dom.closeAll ar 0 (args.take i)
    AgreeUnlessOverflow (fun ar => (branchType ar type motive value).passAll ar args)
      (fun ar => some (domains ar, motive.subst ar built 0)) ∧
    AgreeUnlessOverflow (fun ar => type.passAll ar args)
      (fun ar => some (domains ar, result.closeAll ar 0 args)) := by
  intro type built domains
  refine ⟨.of_exact ?_, .of_exact (Term.passAll_pis result same)⟩
  have own : ((value.shift .exact binders.length 0).apply
      ((binders.map Binder.erased).zip (Term.ownVars binders.length))).closeAll .exact 0 args =
        built := by
    have back := Term.closeAll_shift value 0 args
    have marked : ((binders.map Binder.erased).zip (Term.ownVars args.length)).map
        (fun arg => (arg.1, arg.2.closeAll .exact 0 args)) = (binders.map Binder.erased).zip args := by
      conv_rhs => rw [← Term.closeAll_ownVars args, List.zip_map_right]
      rfl
    rw [← same, Term.closeAll_apply, marked]
    exact congrArg (Term.apply · _) back
  show (branchType .exact type motive value).passAll .exact args = _
  rw [Term.branchType_pis binders last, Term.passAll_pis _ same, ← own, ← same,
    Term.closeAll_motive]

/-- A constructor with a first argument and a second, erased one whose type depends on the first, at
arguments with free variables. -/
theorem branch_coherence_dependent :
    let binders : List Binder := [⟨false, "x", .var 2⟩, ⟨true, "y", .app false (.var 4) (.var 0)⟩]
    let result : Term := .app false (.app false (.var 3) (.var 1)) (.var 0)
    let motive : Term := .sigma false "z" (.var 0) (.var 3)
    let value : Term := .ctr "mk" (.var 1)
    let first : Term := .lam false "w" (.var 0) (.var 1)
    let second : Term := .var 5
    (branchType .word (.pis binders result) motive value).passAll .word [first, second] =
        some ([.var 2, .app false (.var 3) first],
          motive.subst .word (.app true (.app false value first) second) 0) ∧
      (Term.pis binders result).passAll .word [first, second] =
        some ([.var 2, .app false (.var 3) first],
          .app false (.app false (.var 1) first) second) := by
  intro binders result motive value first second
  obtain ⟨branch, own⟩ :=
    branch_coherence binders result motive value [first, second] (by simp [result]) rfl
  exact ⟨branch (by decide +kernel), own (by decide +kernel)⟩

/-- Put two components into a body that binds them: first the second one, moved below the binder of the
first, and then the first one. -/
def Term.substPair (ar : Arith) (body fst snd : Term) : Term :=
  (body.subst ar (snd.shift ar 1 0) 0).subst ar fst 0

/-- The assignment of two components to the innermost variables. -/
def Assign.both (fst snd : Term) : Assign
  | 0 => snd
  | 1 => fst
  | i + 2 => .var i

/-- The components may be put in from the outermost to the innermost one. -/
theorem Term.substPair_eq_closeAll (body fst snd : Term) :
    body.substPair .exact fst snd = body.closeAll .exact 0 [fst, snd] := by
  have outer := subst_subst body (snd.shift .exact 1 0) fst 0 0
  have back : (snd.shift .exact 1 (0 : Nat)).subst .exact fst (0 : Nat) = snd := subst_shift snd fst 0
  exact outer.trans (congrArg (subst _ .exact · 0) back)

/-- The components may be put in at once. -/
theorem Term.closeAll_eq_inst_both (body fst snd : Term) :
    body.closeAll .exact 0 [fst, snd] = body.inst (Assign.both fst snd) := by
  have at_once : (fun i => ((Assign.close fst).up i).inst (Assign.close snd)) =
      Assign.both fst snd := by
    funext i
    obtain _ | _ | i := i
    · exact inst_var 0 _
    · rw [Assign.up_succ, inst_raise_close]
      rfl
    · rw [Assign.up_succ, inst_raise_close]
      rfl
  show (body.subst .exact fst (1 : Nat)).subst .exact snd (0 : Nat) = _
  rw [subst_eq_inst, subst_eq_inst]
  show (body.inst (Assign.close fst).up).inst (Assign.close snd) = _
  rw [inst_inst, at_once]

/-- What a split of a pair computes to is its body with the components put in at once, which is the same
as putting in the first and then the second. Put into the type that the body has to have, the components
lead to the motive at their pair. -/
theorem split_coherence (env : Env) (erased mark : Bool) (name fstName sndName : String)
    (type sigma motive body fst snd : Term) :
    (∀ ar, (Term.split erased (.pair mark type fst snd) name motive fstName sndName body).contract?
      ar env = some (.plain (body.substPair ar fst snd))) ∧
    AgreeUnlessOverflow (fun ar => body.substPair ar fst snd)
      (fun _ => body.inst (Assign.both fst snd)) ∧
    AgreeUnlessOverflow (fun ar => body.substPair ar fst snd)
      (fun ar => (body.subst ar fst 1).subst ar snd 0) ∧
    AgreeUnlessOverflow (fun ar => (splitBodyType ar erased sigma motive).substPair ar fst snd)
      (fun ar => motive.subst ar (.pair erased sigma fst snd) 0) := by
  refine ⟨fun ar => rfl, .of_exact ?_, .of_exact ?_, .of_exact ?_⟩
  · rw [Term.substPair_eq_closeAll, Term.closeAll_eq_inst_both]
  · exact Term.substPair_eq_closeAll body fst snd
  · have type_back : (sigma.shift .exact 2 0).closeAll .exact 0 [fst, snd] = sigma :=
      Term.closeAll_shift sigma 0 [fst, snd]
    obtain ⟨fst_put, rest⟩ := List.cons.inj (Term.closeAll_ownVars [fst, snd])
    have snd_put := (List.cons.inj rest).1
    have rebuilt : (Term.pair erased (sigma.shift .exact 2 0) (.var 1) (.var 0)).closeAll .exact 0
        [fst, snd] = .pair erased sigma fst snd :=
      congr (congr (congrArg (Term.pair erased) type_back) fst_put) snd_put
    rw [Term.substPair_eq_closeAll, ← rebuilt]
    exact Term.closeAll_motive motive _ [fst, snd]

/-- A split in whose body both components occur below a further binder, with components that have free
variables, and a motive that mentions the scrutinee and another variable. -/
theorem split_coherence_open :
    let sigma : Term := .sigma false "x" (.var 0) (.app false (.var 2) (.var 0))
    let motive : Term := .app false (.var 2) (.var 0)
    let body : Term := .lam false "y" (.var 2) (.app false (.app false (.var 2) (.var 1)) (.var 3))
    let fst : Term := .box (.var 4)
    let snd : Term := .var 0
    (Term.split true (.pair false sigma fst snd) "p" motive "a" "b" body).contract? .word .empty =
        some (.plain ((body.subst .word fst 1).subst .word snd 0)) ∧
      (splitBodyType .word true sigma motive).substPair .word fst snd =
        motive.subst .word (.pair true sigma fst snd) 0 := by
  intro sigma motive body fst snd
  obtain ⟨rule, -, inTurn, typed⟩ :=
    split_coherence .empty true false "p" "a" "b" sigma sigma motive body fst snd
  refine ⟨(rule .word).trans ?_, typed (by decide +kernel)⟩
  exact congrArg (fun t => some (Contractum.plain t)) (inTurn (by decide +kernel))

end BoxCalculus
