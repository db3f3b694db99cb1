import BoxCalculus.Proofs.Cosmetics
import BoxCalculus.Proofs.StepCounts
import BoxCalculus.Proofs.TranslatedChecking
import BoxCalculus.Proofs.UniqueNormalForms

/-!
# Weakening

A block of bindings can be put anywhere into a context. Terms make room for it: their variables beyond
the bindings inside of the block are shifted by its length, and so are the types of those bindings. This
is a translation (`insertion`), so normalizing and checking a term with room for the block does what it
does to the term, with the results and the failures shifted (`weakening`).
-/

namespace BoxCalculus

namespace Term

/-- A shift can be taken back. -/
theorem shift_back (t : Term) {delta : Int} (room : 0 ≤ delta) (cutoff : Int) :
    (t.shift .exact delta cutoff).shift .exact (-delta) cutoff = t := by
  rw [shift_shift t (Int.le_refl _) (by omega), Int.add_right_neg, shift_zero]

/-- Shifting keeps the differences in shape. -/
theorem equal_shift (t u : Term) {delta : Int} (room : 0 ≤ delta) (cutoff : Int) :
    (t.shift .exact delta cutoff).equal (u.shift .exact delta cutoff) = t.equal u := by
  rw [Bool.eq_iff_iff, equal_iff_strip, equal_iff_strip, strip_shift, strip_shift]
  constructor
  · intro same
    have back := congrArg (fun t => t.shift .exact (-delta) cutoff) same
    rwa [shift_back _ room, shift_back _ room] at back
  · intro same
    rw [same]

/-- A question about the variables of a term whose variables have been replaced. -/
theorem allVars_bindVars (p : Nat → Int → Bool) (f : Nat → Int → Term) (t : Term) (depth : Nat) :
    (t.bindVars f depth).allVars p depth = t.allVars (fun k i => (f k i).allVars p k) depth := by
  induction t generalizing depth with
  | data name type ctrs type_ih ctrs_ih =>
      rw [Bool.eq_iff_iff]
      simp only [bindVars, allVars, type_ih, Entries.bindVars_eq_map, Entries.allVars_eq_all,
        Entries.toList_map, Bool.and_eq_true, List.all_eq_true, List.forall_mem_map]
      exact and_congr_right' (forall₂_congr fun entry mem => by rw [ctrs_ih entry mem])
  | caseOf type value name motive branches type_ih value_ih motive_ih branches_ih =>
      rw [Bool.eq_iff_iff]
      simp only [bindVars, allVars, type_ih, value_ih, motive_ih, Entries.bindVars_eq_map,
        Entries.allVars_eq_all, Entries.toList_map, Bool.and_eq_true, List.all_eq_true,
        List.forall_mem_map]
      exact and_congr_right' (forall₂_congr fun entry mem => by rw [branches_ih entry mem])
  | _ => simp_all [bindVars, allVars]

/-- Shifting neither binds a free variable nor frees a bound one. -/
theorem closed_shift (t : Term) (delta cutoff : Nat) :
    (t.shift .exact delta cutoff).closed = t.closed := by
  rw [closed, shift_exact, allVars_bindVars, closed]
  congr 1
  funext k i
  by_cases low : i < (cutoff : Int) + k
  · rw [if_pos low, allVars]
  · -- A variable that is shifted is free before and after.
    have free : ¬ i < (k : Int) := by omega
    have free' : ¬ i + delta < (k : Int) := by omega
    rw [if_neg low, allVars, decide_eq_false free', decide_eq_false free]

end Term

/-- The innermost bindings of a context, with room for `delta` bindings outside of them. -/
def shiftBindings (ar : Arith) (delta : Int) : List Binding → List Binding
  | [] => []
  | binding :: rest =>
      ⟨binding.name, binding.type.shift ar delta rest.length⟩ :: shiftBindings ar delta rest

/-- Put a block of bindings into a context, around all but its `outer` outermost bindings. -/
def Context.insert (ar : Arith) (block : List Binding) (outer : Nat) (ctx : Context) : Context :=
  let inside := ctx.length - outer
  ⟨shiftBindings ar block.length (ctx.bindings.take inside) ++ block ++ ctx.bindings.drop inside⟩

/-- Making room keeps the number of bindings. -/
@[simp] theorem length_shiftBindings (ar : Arith) (delta : Int) : ∀ bindings : List Binding,
    (shiftBindings ar delta bindings).length = bindings.length
  | [] => rfl
  | _ :: rest => congrArg (· + 1) (length_shiftBindings ar delta rest)

/-- Making room shifts each type past the bindings outside of it. -/
theorem getElem?_shiftBindings (ar : Arith) (delta : Int) (bindings : List Binding) (i : Nat) :
    (shiftBindings ar delta bindings)[i]? = bindings[i]?.map fun binding =>
      ⟨binding.name, binding.type.shift ar delta (bindings.length - i - 1 : Nat)⟩ := by
  induction bindings generalizing i with
  | nil => rfl
  | cons binding rest ih =>
      cases i with
      | zero => simp [shiftBindings]
      | succ i =>
          rw [shiftBindings, List.getElem?_cons_succ, ih, List.getElem?_cons_succ]
          simp

namespace Context

/-- A block is put between the bindings inside and those outside of it. -/
theorem insert_append (ar : Arith) (block inner outer : List Binding) :
    Context.insert ar block outer.length ⟨inner ++ outer⟩ =
      ⟨shiftBindings ar block.length inner ++ block ++ outer⟩ := by
  simp [Context.insert, Context.length]

/-- Every context that is long enough has bindings inside and outside of a block. -/
theorem exists_append {n outer : Nat} {ctx : Context} (placed : ctx.length = outer + n) :
    ∃ inner rest, ctx = ⟨inner ++ rest⟩ ∧ inner.length = n ∧ rest.length = outer := by
  obtain ⟨bindings⟩ := ctx
  simp only [Context.length] at placed
  refine ⟨bindings.take n, bindings.drop n, by rw [List.take_append_drop], ?_, ?_⟩
  · rw [List.length_take]
    omega
  · rw [List.length_drop]
    omega

/-- A variable that is bound is looked up by its place. -/
theorem lookup_nat (ctx : Context) (i : Nat) : ctx.lookup .exact i =
    ctx.bindings[i]?.map fun binding => ⟨binding.name, binding.type.shift .exact (i + 1) 0⟩ := by
  rw [Context.lookup, if_pos (Int.natCast_nonneg i), Int.toNat_natCast]
  rfl

/-- What a variable is bound to does not change when it makes room for a block. -/
theorem lookup_insert (block inner outer : List Binding) (i : Int) :
    ((⟨shiftBindings .exact block.length inner ++ block ++ outer⟩ : Context).lookup .exact
        (if i < inner.length then i else i + block.length)).map Binding.type =
      ((⟨inner ++ outer⟩ : Context).lookup .exact i).map fun binding =>
        binding.type.shift .exact block.length inner.length := by
  by_cases negative : i < 0
  · -- A negative variable is bound by nothing.
    have low : i < inner.length := by omega
    have out : ¬ 0 ≤ i := by omega
    rw [if_pos low, Context.lookup, if_neg out, Context.lookup, if_neg out]
    rfl
  obtain ⟨j, rfl⟩ := Int.eq_ofNat_of_zero_le (Int.not_lt.1 negative)
  by_cases low : j < inner.length
  · -- The binding is inside of the block, and its type has made room for the block.
    have here : (shiftBindings .exact block.length inner ++ block ++ outer)[j]? =
        (shiftBindings .exact block.length inner)[j]? := by
      rw [List.append_assoc, List.getElem?_append_left (by simpa using low)]
    rw [if_pos (by omega), lookup_nat, lookup_nat, here, getElem?_shiftBindings,
      List.getElem?_append_left low]
    simp only [Option.map_map, Function.comp_def]
    congr 1
    funext binding
    have comm := @Term.shift_comm binding.type (j + 1) block.length 0 (inner.length - j - 1 : Nat)
      (by omega) (by omega) (by omega)
    rw [← comm]
    congr 1
    omega
  · -- The binding is outside of the block, and its type is moved past the block when it is looked up.
    have there : (shiftBindings .exact block.length inner ++ block ++ outer)[j + block.length]? =
        (inner ++ outer)[j]? := by
      rw [List.getElem?_append_right (by simp; omega), List.getElem?_append_right (by omega)]
      congr 1
      simp
      omega
    rw [if_neg (by omega), ← Int.natCast_add, lookup_nat, lookup_nat, there]
    simp only [Option.map_map, Function.comp_def]
    congr 1
    funext binding
    rw [Term.shift_shift _ (by omega) (by omega)]
    congr 1
    omega

end Context

/-- Making room for a block of bindings, around all but the `outer` outermost bindings of a context, is
a translation. -/
def insertion {env : Env} (closed : env.Closed) (block : List Binding) (outer : Nat) :
    ContextTranslation .exact env env where
  term n t := t.shift .exact block.length n
  index n i := if i < n then i else i + block.length
  mark := id
  rename := id
  hole _ := rfl
  var n i := by
    show (if i < (n : Int) + (0 : Nat) then Term.var i else .var (i + block.length)) = _
    rw [Int.natCast_zero, Int.add_zero]
    split <;> rfl
  univ _ := rfl
  ref _ _ := rfl
  pi n _ _ _ _ := by simp only [Term.shift_eq_inst, Term.inst_pi]; rfl
  lam n _ _ _ _ := by simp only [Term.shift_eq_inst, Term.inst_lam]; rfl
  app n _ _ _ := rfl
  sigma n _ _ _ _ := by simp only [Term.shift_eq_inst, Term.inst_sigma]; rfl
  pair n _ _ _ _ := rfl
  split n _ _ _ _ _ _ _ := by simp only [Term.shift_eq_inst, Term.inst_split]; rfl
  data n _ _ _ := by simp only [Term.shift_eq_inst, Term.inst_data]; rfl
  ctr n _ _ := rfl
  caseOf n _ _ _ _ _ := by simp only [Term.shift_eq_inst, Term.inst_caseOf]; rfl
  dup n _ _ _ := by simp only [Term.shift_eq_inst, Term.inst_dup]; rfl
  box n _ := rfl
  boxType n _ := rfl
  bound n i low := if_pos (by omega)
  shift n delta cutoff t := by
    have comm := @Term.shift_comm t delta block.length cutoff (n + cutoff : Nat) (by omega) (by omega)
      (by omega)
    rw [← comm]
    congr 1
    omega
  subst n t value := by
    rw [Term.shift_eq_inst, Term.shift_eq_inst, Term.shift_eq_inst, Term.subst_zero, Term.subst_zero]
    exact Term.inst_close_inst ..
  unfold n name := by
    cases found : env name with
    | none => rfl
    | some d => rw [Option.map_some, Term.shift_eq_inst, Term.inst_closed (closed name d found)]
  equal n t u := t.equal_shift u (Int.natCast_nonneg _) n
  closed n t := t.closed_shift block.length n
  outer := outer
  context := Context.insert .exact block outer
  extend n ctx name type placed := by
    obtain ⟨inner, rest, rfl, rfl, rfl⟩ := Context.exists_append placed
    rw [Context.insert_append]
    exact Context.insert_append .exact block (⟨name, type⟩ :: inner) rest
  lookup n ctx i placed := by
    obtain ⟨inner, rest, rfl, rfl, rfl⟩ := Context.exists_append placed
    rw [Context.insert_append]
    exact Context.lookup_insert block inner rest i

/-- A type error that has made room for a block of bindings, around all but the `outer` outermost bindings
of its context. -/
def TypeError.insert (ar : Arith) (block : List Binding) (outer : Nat) (e : TypeError) : TypeError :=
  let room (t : Term) := t.shift ar block.length (e.context.length - outer : Nat)
  ⟨e.kind, e.name, e.term?.map room, e.expected?.map room, e.actual?.map room,
    e.context.insert ar block outer⟩

/-- A failure whose terms have made room for a block of bindings. -/
def Failure.insert (ar : Arith) (block : List Binding) (outer : Nat) : Failure → Failure
  | typing e => typing (e.insert ar block outer)
  | stopped stop => stopped stop
  | nothingToInfer => nothingToInfer

/-- The type of a term, or the failure to infer one, that has made room for a block of bindings between
`inner` and `outer` others. -/
def insertOutcome (ar : Arith) (block : List Binding) (inner outer : Nat) :
    Except Failure Term → Except Failure Term
  | .ok type => .ok (type.shift ar block.length inner)
  | .error e => .error (e.insert ar block outer)

/-- What a failure is, apart from the terms that it is about. -/
inductive Status where
  | typing (kind : ErrorKind) (name : String)
  | stopped (stop : Stop)
  | nothingToInfer
  deriving DecidableEq

/-- The status of a failure. -/
def Failure.status : Failure → Status
  | typing e => .typing e.kind e.name
  | stopped stop => .stopped stop
  | nothingToInfer => .nothingToInfer

section Exact

variable {env : Env} (closed : env.Closed) (fuel : Int) (canceled : Bool) (t : Term)
include closed

/-- Normalizing a term that has made room for new bindings. -/
theorem normalize_shift (block : List Binding) (inner : Nat) :
    let k : Kernel := ⟨.exact, env, fuel⟩
    (k.normalize canceled (t.shift .exact block.length inner)).1 =
        (k.normalize canceled t).1.shift .exact block.length inner ∧
      (k.normalize canceled (t.shift .exact block.length inner)).2.map Failure.status =
        (k.normalize canceled t).2.map Failure.status := by
  intro k
  obtain ⟨terms, failures⟩ := (insertion closed block 0).normalize inner fuel canceled t
  refine ⟨terms, ?_⟩
  show (k.normalize canceled ((insertion closed block 0).term inner t)).2.map _ = _
  generalize (k.normalize canceled t).2 = failure,
    (k.normalize canceled ((insertion closed block 0).term inner t)).2 = failure' at failures ⊢
  cases failures with
  | none => rfl
  | some stuck => cases stuck <;> rfl

/-- Inferring the type of a term in a context that a block of bindings has been put into. -/
theorem inferIn_insert (inner block outer : List Binding) :
    let k : Kernel := ⟨.exact, env, fuel⟩
    k.inferIn canceled (t.shift .exact block.length inner.length)
        ⟨shiftBindings .exact block.length inner ++ block ++ outer⟩ =
      insertOutcome .exact block inner.length outer.length
        (k.inferIn canceled t ⟨inner ++ outer⟩) := by
  intro k
  have placed : (⟨inner ++ outer⟩ : Context).length = outer.length + inner.length := by
    rw [Context.length, List.length_append, Nat.add_comm]
  have inferred := (insertion closed block outer.length).inferIn fuel canceled t placed
  show k.inferIn canceled (t.shift .exact block.length inner.length) _ = _
  rw [← Context.insert_append]
  refine inferred.trans ?_
  cases k.inferIn canceled t ⟨inner ++ outer⟩ with
  | ok type => rfl
  | error e => cases e <;> rfl

end Exact

/-- A block of bindings can be put into a context. For a term that has made room for the block, normalizing
gives the normal form with room for it and a failure of the same status, and its type is inferred in the
longer context exactly if it is in the shorter one: it is the type with room for the block, and otherwise
the failure is the same with room for the block in its terms. -/
theorem weakening {env : Env} (closed : env.Closed) (fuel : Int) (canceled : Bool) (t : Term)
    (inner block outer : List Binding)
    (safe : OverflowFree fun ar =>
      let k : Kernel := { arith := ar, env := env, fuel := fuel }
      let t' := t.shift ar block.length inner.length
      (k.normalize canceled t', k.normalize canceled t,
        (k.normalize canceled t).1.shift ar block.length inner.length,
        k.inferIn canceled t' ⟨shiftBindings ar block.length inner ++ block ++ outer⟩,
        insertOutcome ar block inner.length outer.length (k.inferIn canceled t ⟨inner ++ outer⟩))) :
    let k : Kernel := { env := env, fuel := fuel }
    let t' := t.shift .word block.length inner.length
    (k.normalize canceled t').1 = (k.normalize canceled t).1.shift .word block.length inner.length ∧
      (k.normalize canceled t').2.map Failure.status = (k.normalize canceled t).2.map Failure.status ∧
      k.inferIn canceled t' ⟨shiftBindings .word block.length inner ++ block ++ outer⟩ =
        insertOutcome .word block inner.length outer.length (k.inferIn canceled t ⟨inner ++ outer⟩) := by
  intro k t'
  simp only [OverflowFree, Prod.mk.injEq] at safe
  obtain ⟨normalized', normalized, room, inferred', inferred⟩ := safe
  obtain ⟨terms, failures⟩ := normalize_shift closed fuel canceled t block inner.length
  refine ⟨?_, ?_, ?_⟩
  · rw [normalized', room, terms]
  · rw [normalized', normalized, failures]
  · rw [inferred', inferred]
    exact inferIn_insert closed fuel canceled t inner block outer

/-- The identity has no free variables. -/
theorem identityKernel_closed : identityKernel.env.Closed := by
  intro name t found
  simp only [identityKernel, Option.ite_none_right_eq_some] at found
  obtain ⟨-, found⟩ := found
  cases found
  rfl

/-- Below `A : Type` and `x : A` the term `x (id A)` is normalized to `x A`, and it has no type since `x`
is no function. With `B : Type` put between the two, `A` has made room for `B` in the normal form and in
the type error. -/
theorem weakening_block :
    let t : Term := .app false (.var 0) (.app false (.ref "id") (.var 1))
    let ctx : Context := ⟨[⟨"x", .var 1⟩, ⟨"B", .univ⟩, ⟨"A", .univ⟩]⟩
    (identityKernel.normalize false (t.shift .word 1 1)).1 = .app false (.var 0) (.var 2) ∧
      identityKernel.inferIn false (t.shift .word 1 1) ctx =
        .error (.typing ⟨.nonFunctionApplication, "",
          some (.app false (.var 0) (.app false (.ref "id") (.var 2))), none, some (.var 2), ctx⟩) := by
  intro t ctx
  let e : Failure := .typing ⟨.nonFunctionApplication, "",
    some (.app false (.var 0) (.app false (.ref "id") (.var 2))), none, some (.var 2), ctx⟩
  have outcome (ar : Arith) (either : ar = .word ∨ ar = .exact) :
      let k : Kernel := { arith := ar, env := identityKernel.env, fuel := 3 }
      let t' := t.shift ar 1 1
      (k.normalize false t', k.normalize false t, (k.normalize false t).1.shift ar 1 1,
        k.inferIn false t' ⟨shiftBindings ar 1 [⟨"x", .var 0⟩] ++ [⟨"B", .univ⟩] ++ [⟨"A", .univ⟩]⟩,
        insertOutcome ar [⟨"B", .univ⟩] 1 1
          (k.inferIn false t ⟨[⟨"x", .var 0⟩] ++ [⟨"A", .univ⟩]⟩)) =
        ((.app false (.var 0) (.var 2), none), (.app false (.var 0) (.var 1), none),
          .app false (.var 0) (.var 2), .error e, .error e) := by
    rcases either with rfl | rfl <;> rfl
  obtain ⟨normalized, -, inferred⟩ := weakening identityKernel_closed 3 false t [⟨"x", .var 0⟩]
    [⟨"B", .univ⟩] [⟨"A", .univ⟩]
    ((outcome .word (.inl rfl)).trans (outcome .exact (.inr rfl)).symm)
  exact ⟨normalized, inferred⟩

end BoxCalculus
