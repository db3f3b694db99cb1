import BoxCalculus.Kernel
import BoxCalculus.Proofs.Shape

/-!
# Stuck case analyses

`Term.firstStuck` looks for a case analysis whose scrutinee is closed, in the order in which the parts
of terms are visited. What it finds is such a case analysis (`Term.Everywhere.firstStuck`). Normalizing
looks for one when the reduction has come to an end, so `Kernel.normalize_cases` lists what can come of
it.
-/

namespace BoxCalculus

/-- Is the term a case analysis whose scrutinee is closed? -/
def Term.isStuck : Term → Bool
  | .caseOf _ value _ _ _ => value.closed
  | _ => false

/-- The first member is looked at first. -/
theorem findSome?_cons_or (f : α → Option β) (a : α) (as : List α) :
    (a :: as).findSome? f = (f a).or (as.findSome? f) := by
  rw [List.findSome?_cons]
  cases f a <;> rfl

/-- Entries are looked through in order. -/
theorem Entries.firstStuck_eq : ∀ entries : Entries,
    entries.firstStuck = entries.terms.findSome? Term.firstStuck
  | .nil => rfl
  | .cons label term rest => by
      simp [Entries.firstStuck, findSome?_cons_or, Entries.firstStuck_eq rest]

namespace Term

/-- The term itself is looked at first, and then its parts in order. -/
theorem firstStuck_eq (t : Term) : t.firstStuck =
    if t.isStuck then some t else t.parts.findSome? fun part => part.2.firstStuck := by
  cases t with
  | data =>
      simp [firstStuck, isStuck, parts_data, Entries.firstStuck_eq, List.findSome?_append,
        List.findSome?_map, findSome?_cons_or, Function.comp_def]
  | caseOf =>
      simp [firstStuck, isStuck, parts_caseOf, Entries.firstStuck_eq, List.findSome?_map,
        findSome?_cons_or, Function.comp_def]
  | _ => simp [firstStuck, isStuck, parts, findSome?_cons_or]

/-- What is found is a stuck case analysis in the term. -/
theorem Everywhere.firstStuck {P : Term → Prop} {t s : Term} (all : Everywhere P t)
    (found : t.firstStuck = some s) : P s ∧ s.isStuck = true := by
  induction t using Term.byParts with
  | step t ih =>
      rw [firstStuck_eq] at found
      split at found
      · rename_i here
        obtain rfl := Option.some.inj found
        exact ⟨all.here, here⟩
      · obtain ⟨part, mem, found⟩ := List.exists_of_findSome?_eq_some found
        exact ih part mem (all.part mem) found

end Term

/-- What normalizing makes of a reduction: a reduction that has stopped early is reported, and so is a
stuck case analysis in the normal form. -/
theorem Kernel.normalize_cases {k : Kernel} {canceled : Bool} {t u : Term} {m : Meter}
    (reduced : reduce k.arith k.env t (Meter.start k.fuel canceled) = (u, m)) :
    (∃ stop, m.stopped = some stop ∧ k.normalize canceled t = (u, some (.stopped stop))) ∨
    (m.stopped = none ∧ u.firstStuck = none ∧ k.normalize canceled t = (u, none)) ∨
    (m.stopped = none ∧ ∃ stuck, u.firstStuck = some stuck ∧
      (stuck.lacksScrutinee = true ∧ k.normalize canceled t = (u, some (.stopped .gap)) ∨
      stuck.lacksScrutinee = false ∧ k.normalize canceled t =
        (u, some (.typing (.about .stuckReduction stuck Context.empty))))) := by
  simp only [Kernel.normalize, reduced]
  cases m.stopped with
  | some stop => exact .inl ⟨stop, rfl, rfl⟩
  | none =>
      refine .inr ?_
      cases u.firstStuck with
      | none => exact .inl ⟨rfl, rfl, rfl⟩
      | some stuck =>
          refine .inr ⟨rfl, stuck, rfl, ?_⟩
          cases lacks : stuck.lacksScrutinee with
          | true => exact .inl ⟨rfl, by simp [lacks]⟩
          | false => exact .inr ⟨rfl, by simp [lacks]⟩

end BoxCalculus
