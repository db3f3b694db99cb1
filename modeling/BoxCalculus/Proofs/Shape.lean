import BoxCalculus.Proofs.Parts

/-!
# Questions about all terms in a term

`Term.everywhere` asks a question of a term and of all terms in it. Whether terms are missing is such a
question: a term is `solid` if nothing in it is missing, and `sound` if at most domains of lambdas
are.
-/

namespace BoxCalculus

mutual

/-- Does the question hold of the term and of each term in it? -/
def Term.everywhere (p : Term → Bool) : Term → Bool
  | t@(.pi _ _ dom cod) => p t && dom.everywhere p && cod.everywhere p
  | t@(.lam _ _ dom body) => p t && dom.everywhere p && body.everywhere p
  | t@(.app _ fn arg) => p t && fn.everywhere p && arg.everywhere p
  | t@(.sigma _ _ fst snd) => p t && fst.everywhere p && snd.everywhere p
  | t@(.pair _ type fst snd) =>
      p t && type.everywhere p && fst.everywhere p && snd.everywhere p
  | t@(.split _ scrutinee _ motive _ _ body) =>
      p t && scrutinee.everywhere p && motive.everywhere p && body.everywhere p
  | t@(.data _ type ctrs) => p t && type.everywhere p && ctrs.everywhere p
  | t@(.ctr _ type) => p t && type.everywhere p
  | t@(.caseOf type value _ motive branches) =>
      p t && type.everywhere p && value.everywhere p && motive.everywhere p &&
        branches.everywhere p
  | t@(.dup _ value body) => p t && value.everywhere p && body.everywhere p
  | t@(.box value) => p t && value.everywhere p
  | t@(.boxType type) => p t && type.everywhere p
  | t => p t

/-- Does the question hold of all terms in the entries? -/
def Entries.everywhere (p : Term → Bool) : Entries → Bool
  | .nil => true
  | .cons _ term rest => term.everywhere p && rest.everywhere p

end

/-- A question holds in entries if it does in each of their terms. -/
theorem Entries.everywhere_eq_all (p : Term → Bool) : ∀ entries : Entries,
    entries.everywhere p = entries.toList.all fun entry => entry.2.everywhere p
  | .nil => rfl
  | .cons label term rest => by
      simp [Entries.everywhere, Entries.toList, Entries.everywhere_eq_all p rest]

namespace Term

/-- A question is asked of the term and in each of its parts. -/
theorem everywhere_eq_all (p : Term → Bool) (t : Term) :
    t.everywhere p = (p t && t.parts.all fun part => part.2.everywhere p) := by
  cases t with
  | data =>
      simp [everywhere, parts, Entries.everywhere_eq_all, Function.comp_def, Bool.and_assoc,
        Bool.and_comm]
  | caseOf =>
      simp [everywhere, parts, Entries.everywhere_eq_all, Function.comp_def, Bool.and_assoc]
  | _ => simp [everywhere, parts, Bool.and_assoc]

/-- A question holds everywhere in a term if it holds of the term and everywhere in its parts. -/
theorem everywhere_iff {p : Term → Bool} {t : Term} :
    t.everywhere p = true ↔ p t = true ∧ ∀ part ∈ t.parts, part.2.everywhere p = true := by
  rw [everywhere_eq_all, Bool.and_eq_true, List.all_eq_true]

/-- `Everywhere P t` says that `P` holds of `t` and of each term in it. -/
inductive Everywhere (P : Term → Prop) : Term → Prop where
  | intro {t : Term} : P t → (∀ part ∈ t.parts, Everywhere P part.2) → Everywhere P t

namespace Everywhere

variable {P Q : Term → Prop} {t : Term}

/-- What holds everywhere holds of the term. -/
theorem here (everywhere : Everywhere P t) : P t := by
  cases everywhere with
  | intro here _ => exact here

/-- What holds everywhere holds everywhere in the parts. -/
theorem part (everywhere : Everywhere P t) {part : Nat × Term} (mem : part ∈ t.parts) :
    Everywhere P part.2 := by
  cases everywhere with
  | intro _ parts => exact parts part mem

/-- What holds everywhere in a case analysis holds in its branches. -/
theorem branch {type value motive : Term} {name : String} {branches : Entries}
    (everywhere : Everywhere P (caseOf type value name motive branches)) {entry : String × Term}
    (mem : entry ∈ branches.toList) : Everywhere P entry.2 :=
  everywhere.part (mem_parts_branch mem)

/-- What holds everywhere implies what is weaker everywhere. -/
theorem imp (everywhere : Everywhere P t) (weaker : ∀ t, P t → Q t) : Everywhere Q t := by
  induction everywhere with
  | intro here _ ih => exact .intro (weaker _ here) ih

end Everywhere

/-- A question holds everywhere in a term if its answer does. -/
theorem everywhere_iff_everywhere {p : Term → Bool} {t : Term} :
    t.everywhere p = true ↔ Everywhere (fun u => p u = true) t := by
  induction t using Term.byParts with
  | step t ih =>
      rw [everywhere_iff]
      exact ⟨fun ⟨here, parts⟩ => .intro here fun part mem => (ih part mem).1 (parts part mem),
        fun all => ⟨all.here, fun part mem => (ih part mem).2 (all.part mem)⟩⟩

/-- No part of the term is missing, except for the domain of a lambda. -/
def partsThere : Term → Bool
  | lam _ _ _ body => !body.isHole
  | t => t.parts.all fun part => !part.2.isHole

/-- At most domains of lambdas are missing in the term. -/
def sound (t : Term) : Bool :=
  !t.isHole && t.everywhere partsThere

/-- No term is missing in the term. -/
def solid (t : Term) : Bool :=
  t.everywhere fun t => !t.isHole

end Term

end BoxCalculus
