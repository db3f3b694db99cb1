import BoxCalculus.Typing.Judgement

/-!
# What sequencing keeps

The checker is made of reductions and failures, one after the other. So a property of computations
holds of the whole checker if it holds of each of these and sequencing keeps it (`Sequenced.judge`).
-/

namespace BoxCalculus

/-- One computation after the other: the second runs if the first has succeeded. -/
theorem Checking.bind_apply (x : Checking α) (f : α → Checking β) (m : Meter) :
    (x >>= f) m =
      match x m with
      | .error e => .error e
      | .ok out => f out.1 out.2 := by
  simp only [bind, StateT.bind, Except.bind]
  cases x m <;> rfl

/-- The property of computations holds of reductions and failures, and sequencing keeps it. -/
structure Sequenced (ar : Arith) (env : Env) (P : {α : Type} → Checking α → Prop) : Prop where
  pure : ∀ {α : Type} (a : α), P (Pure.pure a)
  fail : ∀ {α : Type} (e : TypeError), P (Checking.fail e : Checking α)
  nothing : P (throw .nothingToInfer : Checking Term)
  bind : ∀ {α β : Type} {x : Checking α} {f : α → Checking β}, P x → (∀ a, P (f a)) → P (x >>= f)
  normal : ∀ t, P (normal ar env t)

namespace Sequenced

variable {ar : Arith} {env : Env} {P : {α : Type} → Checking α → Prop} (seq : Sequenced ar env P)
include seq

/-- The property holds of asking for the universe. -/
theorem isUniverse (t : Term) : P (isUniverse ar env t) :=
  seq.bind (seq.normal t) fun _ => seq.bind (seq.normal .univ) fun _ => seq.pure _

/-- The property holds of settling a type. -/
theorem settle (mode : Mode) (t actual : Term) (ctx : Context) :
    P (mode.settle ar env t actual ctx) := by
  cases mode with
  | infer => exact seq.pure actual
  | against expected =>
      refine seq.bind (seq.normal actual) fun actual =>
        seq.bind (seq.normal expected) fun expected => ?_
      split
      · exact seq.pure actual
      · exact seq.fail _

/-- The property holds of looking for a declaration. -/
theorem declaration (t : Term) (ctx : Context) : P (declaration ar env t ctx) := by
  refine seq.bind (seq.normal t) fun nf => ?_
  split
  · exact seq.pure _
  · exact seq.fail _

/-- A condition that has to hold before the computation goes on. -/
theorem guard {α : Type} {yes : Bool} {e : TypeError} {rest : Checking α} (next : P rest) :
    P (if (!yes) = true then Checking.fail e >>= fun _ : Unit => rest else rest) := by
  split
  · exact seq.bind (seq.fail e) fun _ => next
  · exact next

/-- The property holds of judging branches if it does of judging each. -/
theorem entries (ctrs : Entries) (declared motive : Term) (ctx : Context) : ∀ {branches : Entries},
    (∀ entry ∈ branches.toList, ∀ ctx mode, P (entry.2.judge ar env ctx mode)) →
    P (branches.judge ar env ctrs declared motive ctx)
  | .nil, _ => seq.pure ()
  | .cons label branch rest, each => by
      cases ctrs with
      | nil => exact seq.pure ()
      | cons name type ctrs =>
          rw [Entries.judge]
          simp only [Entries.toList, List.forall_mem_cons] at each
          exact seq.bind (seq.normal _) fun _ => seq.bind (each.1 _ _) fun _ =>
            entries ctrs declared motive ctx each.2

/-- The property holds of checking a term. -/
theorem judge (t : Term) (ctx : Context) (mode : Mode) : P (t.judge ar env ctx mode) := by
  induction t generalizing ctx mode with
  | hole => exact seq.nothing
  | var index =>
      rw [Term.judge]
      split
      · exact seq.fail _
      · exact seq.settle ..
  | univ => exact seq.settle ..
  | ref name => exact seq.fail _
  | pi erased name dom cod hd hc =>
      unfold Term.judge
      refine seq.bind (hd _ _) fun _ => seq.bind (seq.isUniverse _) fun _ => seq.guard ?_
      refine seq.bind (seq.normal _) fun _ => seq.bind (hc _ _) fun _ => ?_
      exact seq.bind (seq.isUniverse _) fun _ => seq.guard (seq.settle ..)
  | lam erased name dom body _ hb =>
      unfold Term.judge
      dsimp only
      split
      · cases mode with
        | infer => exact seq.fail _
        | against expected =>
            refine seq.bind (seq.normal _) fun expected => ?_
            split
            · exact hb _ _
            · exact seq.fail _
      · exact seq.bind (seq.normal _) fun _ => seq.bind (hb _ _) fun _ => seq.settle ..
  | app erased fn arg hf ha =>
      unfold Term.judge
      refine seq.bind (hf _ _) fun _ => seq.bind (seq.normal _) fun _ => ?_
      split
      · refine seq.bind (ha _ _) fun _ => seq.bind (seq.normal _) fun _ => ?_
        exact seq.bind (seq.normal _) fun _ => seq.settle ..
      · exact seq.fail _
  | sigma erased name fst snd hf hs =>
      unfold Term.judge
      refine seq.bind (hf _ _) fun _ => seq.bind (seq.isUniverse _) fun _ => seq.guard ?_
      refine seq.bind (seq.normal _) fun _ => seq.bind (hs _ _) fun _ => ?_
      exact seq.bind (seq.isUniverse _) fun _ => seq.guard (seq.settle ..)
  | pair erased type fst snd _ hf hs =>
      unfold Term.judge
      refine seq.bind (seq.normal _) fun _ => ?_
      split
      · refine seq.bind (hf _ _) fun _ => seq.bind (seq.normal _) fun _ => ?_
        exact seq.bind (hs _ _) fun _ => seq.settle ..
      · exact seq.fail _
  | split erased scrutinee name motive fstName sndName body hs hm hb =>
      unfold Term.judge
      refine seq.bind (hs _ _) fun _ => seq.bind (seq.normal _) fun _ => ?_
      split
      · refine seq.bind (hm _ _) fun _ => seq.bind (seq.isUniverse _) fun _ => seq.guard ?_
        refine seq.bind (hb _ _) fun _ => seq.bind (seq.normal _) fun _ => ?_
        exact seq.bind (seq.normal _) fun _ => seq.settle ..
      · exact seq.fail _
  | data name type ctrs =>
      unfold Term.judge
      exact seq.bind (seq.normal _) fun _ => seq.settle ..
  | ctr name type =>
      unfold Term.judge
      refine seq.bind (seq.declaration ..) fun found => ?_
      obtain ⟨declared, ctrs⟩ := found
      dsimp only
      split
      · exact seq.bind (seq.normal _) fun _ => seq.settle ..
      · exact seq.fail _
  | caseOf type value name motive branches _ hv hm hb =>
      unfold Term.judge
      refine seq.bind (seq.declaration ..) fun found => ?_
      obtain ⟨declared, ctrs⟩ := found
      dsimp only
      split
      · exact seq.fail _
      · refine seq.bind (hv _ _) fun _ => seq.bind (seq.normal _) fun _ => seq.guard ?_
        refine seq.bind (hm _ _) fun _ => seq.bind (seq.isUniverse _) fun _ => seq.guard ?_
        refine seq.bind (seq.entries _ _ _ _ hb) fun _ => seq.bind (seq.normal _) fun _ => ?_
        exact seq.bind (seq.normal _) fun _ => seq.settle ..
  | dup name value body hv hb =>
      unfold Term.judge
      refine seq.bind (hv _ _) fun _ => seq.bind (seq.normal _) fun _ => ?_
      split
      · refine seq.bind (hb _ _) fun _ => seq.bind (seq.normal _) fun _ => ?_
        exact seq.bind (seq.normal _) fun _ => seq.settle ..
      · exact seq.fail _
  | box value hv =>
      unfold Term.judge
      exact seq.bind (hv _ _) fun _ => seq.settle ..
  | boxType type ht =>
      unfold Term.judge
      refine seq.bind (ht _ _) fun _ => seq.bind (seq.isUniverse _) fun _ => ?_
      exact seq.guard (seq.settle ..)

end Sequenced

end BoxCalculus
