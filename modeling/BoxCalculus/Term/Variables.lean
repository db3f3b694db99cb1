import BoxCalculus.Term.Basic

/-!
# Shifting and substitution

Both transforms visit each variable together with the number of binders around it. `bindVars` is
that traversal: it replaces each variable by a term and leaves everything else as it is. `allVars`
asks a question of each variable in the same way. Two traversals in a row are one (`bindVars_bindVars`),
and a traversal that maps each variable to itself changes nothing (`bindVars_var`), so a law of
shifting and substitution is a law about single variables.
-/

namespace BoxCalculus

mutual

/-- Replace each variable `i` that stands below `k` binders of the term by `f (depth + k) i`. -/
def Term.bindVars (f : Nat → Int → Term) (depth : Nat) : Term → Term
  | .hole => .hole
  | .var index => f depth index
  | .univ => .univ
  | .ref name => .ref name
  | .pi erased name dom cod => .pi erased name (dom.bindVars f depth) (cod.bindVars f (depth + 1))
  | .lam erased name dom body =>
      .lam erased name (dom.bindVars f depth) (body.bindVars f (depth + 1))
  | .app erased fn arg => .app erased (fn.bindVars f depth) (arg.bindVars f depth)
  | .sigma erased name fst snd =>
      .sigma erased name (fst.bindVars f depth) (snd.bindVars f (depth + 1))
  | .pair erased type fst snd =>
      .pair erased (type.bindVars f depth) (fst.bindVars f depth) (snd.bindVars f depth)
  | .split erased scrutinee name motive fstName sndName body =>
      .split erased (scrutinee.bindVars f depth) name (motive.bindVars f (depth + 1))
        fstName sndName (body.bindVars f (depth + 2))
  | .data name type ctrs => .data name (type.bindVars f depth) (ctrs.bindVars f (depth + 1))
  | .ctr name type => .ctr name (type.bindVars f depth)
  | .caseOf type value name motive branches =>
      .caseOf (type.bindVars f depth) (value.bindVars f depth) name
        (motive.bindVars f (depth + 1)) (branches.bindVars f depth)
  | .dup name value body => .dup name (value.bindVars f depth) (body.bindVars f (depth + 1))
  | .box value => .box (value.bindVars f depth)
  | .boxType type => .boxType (type.bindVars f depth)

/-- Replace the variables of each entry. -/
def Entries.bindVars (f : Nat → Int → Term) (depth : Nat) : Entries → Entries
  | .nil => .nil
  | .cons label term rest => .cons label (term.bindVars f depth) (rest.bindVars f depth)

end

mutual

/-- Does `p (depth + k) i` hold of each variable `i` that stands below `k` binders of the term? -/
def Term.allVars (p : Nat → Int → Bool) (depth : Nat) : Term → Bool
  | .hole | .univ | .ref _ => true
  | .var index => p depth index
  | .pi _ _ dom cod => dom.allVars p depth && cod.allVars p (depth + 1)
  | .lam _ _ dom body => dom.allVars p depth && body.allVars p (depth + 1)
  | .app _ fn arg => fn.allVars p depth && arg.allVars p depth
  | .sigma _ _ fst snd => fst.allVars p depth && snd.allVars p (depth + 1)
  | .pair _ type fst snd => type.allVars p depth && fst.allVars p depth && snd.allVars p depth
  | .split _ scrutinee _ motive _ _ body =>
      scrutinee.allVars p depth && motive.allVars p (depth + 1) && body.allVars p (depth + 2)
  | .data _ type ctrs => type.allVars p depth && ctrs.allVars p (depth + 1)
  | .ctr _ type => type.allVars p depth
  | .caseOf type value _ motive branches =>
      type.allVars p depth && value.allVars p depth && motive.allVars p (depth + 1) &&
        branches.allVars p depth
  | .dup _ value body => value.allVars p depth && body.allVars p (depth + 1)
  | .box value => value.allVars p depth
  | .boxType type => type.allVars p depth

/-- Does the question hold of the variables of each entry? -/
def Entries.allVars (p : Nat → Int → Bool) (depth : Nat) : Entries → Bool
  | .nil => true
  | .cons _ term rest => term.allVars p depth && rest.allVars p depth

end

namespace Entries

/-- Variables are replaced in each entry. -/
theorem bindVars_eq_map (f : Nat → Int → Term) (depth : Nat) : ∀ entries : Entries,
    entries.bindVars f depth = entries.map (Term.bindVars f depth)
  | nil => rfl
  | cons label term rest => by simp [bindVars, map, bindVars_eq_map f depth rest]

/-- A question about variables is asked in each entry. -/
theorem allVars_eq_all (p : Nat → Int → Bool) (depth : Nat) : ∀ entries : Entries,
    entries.allVars p depth = entries.toList.all fun entry => entry.2.allVars p depth
  | nil => rfl
  | cons label term rest => by simp [allVars, toList, allVars_eq_all p depth rest]

/-- Functions that agree on the terms of the entries give the same entries. -/
theorem map_congr {f g : Term → Term} : ∀ {entries : Entries},
    (∀ entry ∈ entries.toList, f entry.2 = g entry.2) → entries.map f = entries.map g
  | nil, _ => rfl
  | cons label term rest, agree => by
      simp only [toList, List.forall_mem_cons] at agree
      simp [map, agree.1, map_congr agree.2]

/-- Mapping twice is mapping once. -/
@[simp] theorem map_map (f g : Term → Term) : ∀ entries : Entries,
    (entries.map f).map g = entries.map (g ∘ f)
  | nil => rfl
  | cons label term rest => by simp [map, map_map f g rest]

/-- A function that fixes the terms of the entries fixes the entries. -/
theorem map_eq_self {f : Term → Term} : ∀ {entries : Entries},
    (∀ entry ∈ entries.toList, f entry.2 = entry.2) → entries.map f = entries
  | nil, _ => rfl
  | cons label term rest, fixed => by
      simp only [toList, List.forall_mem_cons] at fixed
      simp [map, fixed.1, map_eq_self fixed.2]

end Entries

namespace Term

/-- Mapping each variable to itself changes nothing. -/
theorem bindVars_var (t : Term) (depth : Nat) : t.bindVars (fun _ i => var i) depth = t := by
  induction t generalizing depth with
  | data name type ctrs ht hc =>
      simp only [bindVars, Entries.bindVars_eq_map, ht]
      rw [Entries.map_eq_self fun entry h => hc entry h _]
  | caseOf type value name motive branches ht hv hm hb =>
      simp only [bindVars, Entries.bindVars_eq_map, ht, hv, hm]
      rw [Entries.map_eq_self fun entry h => hb entry h _]
  | _ => simp_all [bindVars]

/-- Two traversals in a row are one traversal. -/
theorem bindVars_bindVars (f g : Nat → Int → Term) (t : Term) (depth : Nat) :
    (t.bindVars g depth).bindVars f depth =
      t.bindVars (fun k i => (g k i).bindVars f k) depth := by
  induction t generalizing depth with
  | data name type ctrs ht hc =>
      simp only [bindVars, Entries.bindVars_eq_map, ht, Entries.map_map]
      rw [Entries.map_congr fun entry h => hc entry h _]
  | caseOf type value name motive branches ht hv hm hb =>
      simp only [bindVars, Entries.bindVars_eq_map, ht, hv, hm, Entries.map_map]
      rw [Entries.map_congr fun entry h => hb entry h _]
  | _ => simp_all [bindVars]

/-- Add `delta` to each variable that is free at or above `cutoff`. -/
def shift (t : Term) (ar : Arith) (delta cutoff : Int) : Term :=
  t.bindVars (fun depth i => if i < ar.add cutoff depth then var i else var (ar.add i delta)) 0

/-- Put `value` in place of the variable `target` and lower the variables above it, which closes the
binder that `target` belonged to. -/
def subst (t : Term) (ar : Arith) (value : Term) (target : Int) : Term :=
  t.bindVars (fun depth i =>
    let here := ar.add target depth
    if i = here then value.shift ar here 0 else if here < i then var (ar.add i (-1)) else var i) 0

/-- Does the variable `i` occur free in the term? -/
def occurs (t : Term) (ar : Arith) (i : Int) : Bool :=
  !t.allVars (fun depth j => j != ar.add i depth) 0

/-- Does the term have no free variable? -/
def closed (t : Term) : Bool :=
  t.allVars (fun depth i => i < depth) 0

/-- Is no variable of the term negative? -/
def nonneg (t : Term) : Bool :=
  t.allVars (fun _ i => 0 ≤ i) 0

/-- The answer of a query that needs a term to start from: there is none at a gap. -/
def query (t : Term) (answer : Term → α) : Option α :=
  if t.isHole then none else some (answer t)

end Term

end BoxCalculus
