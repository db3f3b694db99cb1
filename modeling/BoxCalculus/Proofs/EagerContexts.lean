import BoxCalculus.Context
import BoxCalculus.Proofs.SubstitutionAlgebra

/-!
# Contexts that are kept up to date

A `Context` keeps the type of a binder as it was when the binder was added, and moves it when it is
looked up. An `EagerContext` keeps all types as terms in the whole context, so each binder that is
added or dropped shifts them all. After any steps the two have the same entries
(`lookup_refines_eager`).

Between the two stands the room that a type has been given: one for each binder up to its own
(`Context.Moved`). A step changes the room of all types by one (`Context.Moved.step`).
-/

namespace BoxCalculus

/-- The binders around a term, the innermost first. The type of each is a term in the whole context.
-/
structure EagerContext where
  bindings : List Binding

/-- A change of a context: an innermost binder is added, or the innermost binder is dropped. -/
inductive ContextStep where
  | extend (name : String) (type : Term)
  | narrow

/-- Shift the type of a binder. -/
def Binding.shift (binding : Binding) (ar : Arith) (delta : Int) : Binding :=
  ⟨binding.name, binding.type.shift ar delta 0⟩

namespace EagerContext

/-- The context of a closed term. -/
def empty : EagerContext := ⟨[]⟩

/-- Shift the types of all binders. -/
def shift (ctx : EagerContext) (ar : Arith) (delta : Int) : EagerContext :=
  ⟨ctx.bindings.map fun binding => binding.shift ar delta⟩

/-- Add an innermost binder, and make room for it in all types and in its own. -/
def extend (ctx : EagerContext) (ar : Arith) (name : String) (type : Term) : EagerContext :=
  shift ⟨⟨name, type⟩ :: ctx.bindings⟩ ar 1

/-- Drop the innermost binder, if there is one, and the room for it in all other types. -/
def narrow (ctx : EagerContext) (ar : Arith) : EagerContext :=
  shift ⟨ctx.bindings.tail⟩ ar (-1)

/-- The binding of a variable. -/
def lookup (ctx : EagerContext) (index : Int) : Option Binding :=
  if 0 ≤ index then ctx.bindings[index.toNat]? else none

/-- The context after a change. -/
def step (ar : Arith) (ctx : EagerContext) : ContextStep → EagerContext
  | .extend name type => ctx.extend ar name type
  | .narrow => ctx.narrow ar

/-- The context after some changes of the empty one. -/
def after (ar : Arith) (steps : List ContextStep) : EagerContext :=
  steps.foldl (step ar) empty

end EagerContext

namespace Context

/-- The context after a change. -/
def step (ctx : Context) : ContextStep → Context
  | .extend name type => ctx.extend name type
  | .narrow => ctx.narrow

/-- The context after some changes of the empty one. -/
def after (steps : List ContextStep) : Context :=
  steps.foldl step empty

/-- The eager context has the types of the context, each moved past the binders up to its own. -/
def Moved (ctx : Context) (eager : EagerContext) : Prop :=
  ∀ i : Nat, eager.bindings[i]? = ctx.bindings[i]?.map fun binding => binding.shift .exact (i + 1)

/-- Shifting a type that has been moved adds to its room. -/
theorem map_shift_moved (binding? : Option Binding) (i : Nat) (delta : Int) :
    (binding?.map fun binding => binding.shift .exact (i + 1)).map
        (fun binding => binding.shift .exact delta) =
      binding?.map fun binding => binding.shift .exact (i + 1 + delta) := by
  rw [Option.map_map]
  refine congrArg (binding?.map ·) (funext fun binding => ?_)
  exact congrArg (Binding.mk binding.name)
    (Term.shift_shift binding.type (Int.le_refl 0) (by omega))

namespace Moved

variable {ctx : Context} {eager : EagerContext} (moved : ctx.Moved eager)
include moved

/-- A moved context stays one when both are extended. -/
theorem extend (name : String) (type : Term) :
    (ctx.extend name type).Moved (eager.extend .exact name type) := by
  intro i
  cases i with
  | zero => rfl
  | succ i =>
      show (eager.bindings.map _)[i]? = ctx.bindings[i]?.map _
      rw [List.getElem?_map, moved i, map_shift_moved]
      rfl

/-- The types that are left have been given room for the binder that is dropped. -/
theorem narrow : ctx.narrow.Moved (eager.narrow .exact) := by
  intro i
  show (List.map _ eager.bindings.tail)[i]? = ctx.bindings.tail[i]?.map _
  rw [List.getElem?_map, List.getElem?_tail, List.getElem?_tail, moved (i + 1), map_shift_moved,
    show ((i + 1 : Nat) : Int) + 1 + -1 = i + 1 by omega]

/-- A step of the context and the same step of the eager one. -/
theorem step (change : ContextStep) : (ctx.step change).Moved (eager.step .exact change) := by
  cases change with
  | extend name type => exact moved.extend name type
  | narrow => exact moved.narrow

/-- Any steps of the context and the same steps of the eager one. -/
theorem steps (changes : List ContextStep) :
    (changes.foldl Context.step ctx).Moved (changes.foldl (EagerContext.step .exact) eager) := by
  induction changes generalizing ctx eager with
  | nil => exact moved
  | cons change changes ih => exact ih (moved.step change)

/-- Looking up a variable moves the type of its binder. -/
theorem lookup (index : Int) : ctx.lookup .exact index = eager.lookup index := by
  unfold Context.lookup EagerContext.lookup
  split
  · rename_i nonneg
    rw [moved index.toNat, Int.toNat_of_nonneg nonneg]
    rfl
  · rfl

end Moved

/-- The two contexts after the same steps of the empty one. -/
theorem moved_after (steps : List ContextStep) :
    (after steps).Moved (EagerContext.after .exact steps) := by
  have start : empty.Moved EagerContext.empty := fun i => rfl
  exact start.steps steps

/-- The variables that are found are those of the binders. -/
theorem isSome_lookup_iff (ctx : Context) (ar : Arith) (index : Int) :
    (ctx.lookup ar index).isSome = true ↔ 0 ≤ index ∧ index < ctx.length := by
  unfold lookup
  split
  · rename_i nonneg
    rw [Option.isSome_map, isSome_getElem?, length]
    omega
  · rename_i negative
    exact iff_of_false Bool.false_ne_true fun inside => negative inside.1

end Context

/-- After any steps from the empty context, exactly the variables of its binders are found, and unless a
sum overflows they are found with the names and types that the eager context has after these steps. -/
theorem lookup_refines_eager (steps : List ContextStep) (index : Int) :
    let ctx := Context.after steps
    ((ctx.lookup .word index).isSome = true ↔ 0 ≤ index ∧ index < ctx.length) ∧
    AgreeUnlessOverflow (fun ar => ctx.lookup ar index)
      (fun ar => (EagerContext.after ar steps).lookup index) := by
  intro ctx
  exact ⟨ctx.isSome_lookup_iff .word index, .of_exact ((Context.moved_after steps).lookup index)⟩

/-- Below `A : Type`, a binder `x : A` comes and goes before `f` and `n` are added. The type of `f` has
been moved past both of these. -/
theorem lookup_refines_eager_arrow :
    let steps : List ContextStep := [.extend "A" .univ, .extend "x" (.var 0), .narrow,
      .extend "f" (.pi false "a" (.var 0) (.var 1)), .extend "n" (.var 1)]
    (Context.after steps).lookup .word 1 = some ⟨"f", .pi false "a" (.var 2) (.var 3)⟩ ∧
      (Context.after steps).lookup .word 1 = (EagerContext.after .word steps).lookup 1 := by
  intro steps
  let f : Binding := ⟨"f", .pi false "a" (.var 2) (.var 3)⟩
  have lazily (ar : Arith) (either : ar = .word ∨ ar = .exact) :
      (Context.after steps).lookup ar 1 = some f := by
    rcases either with rfl | rfl <;> rfl
  have eagerly (ar : Arith) (either : ar = .word ∨ ar = .exact) :
      (EagerContext.after ar steps).lookup 1 = some f := by
    rcases either with rfl | rfl <;> rfl
  have safe : OverflowFree fun ar =>
      ((Context.after steps).lookup ar 1, (EagerContext.after ar steps).lookup 1) := by
    show ((Context.after steps).lookup .word 1, (EagerContext.after .word steps).lookup 1) =
      ((Context.after steps).lookup .exact 1, (EagerContext.after .exact steps).lookup 1)
    rw [lazily .word (.inl rfl), lazily .exact (.inr rfl), eagerly .word (.inl rfl),
      eagerly .exact (.inr rfl)]
  exact ⟨lazily .word (.inl rfl), (lookup_refines_eager steps 1).2 safe⟩

end BoxCalculus
