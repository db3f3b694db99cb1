import BoxCalculus.Proofs.Redexes

/-!
# The rules one by one

`Rule ar env t c` lists the rules: the eight that concern the forms of terms, and the unfolding of
references. It is what `Term.contract?` looks up (`contract?_iff`), so an argument about all rules is
a case analysis with one case for each.
-/

namespace BoxCalculus

/-- A rule applies to the term at its root and has the contractum as its right-hand side. -/
inductive Rule (ar : Arith) (env : Env) : Term → Contractum → Prop where
  | unfold (name d) : env name = some d → Rule ar env (.ref name) (.plain d)
  | beta (erased erased' name dom body arg) :
      Rule ar env (.app erased (.lam erased' name dom body) arg) (.plain (body.subst ar arg 0))
  | floatApp (erased name value body arg) :
      Rule ar env (.app erased (.dup name value body) arg)
        (.under name value (.app erased body (arg.shift ar 1 0)))
  | unpair (erased erased' type fst snd self motive fstName sndName body) :
      Rule ar env (.split erased (.pair erased' type fst snd) self motive fstName sndName body)
        (.plain ((body.subst ar (snd.shift ar 1 0) 0).subst ar fst 0))
  | floatSplit (erased name value inner self motive fstName sndName body) :
      Rule ar env (.split erased (.dup name value inner) self motive fstName sndName body)
        (.under name value
          (.split erased inner self (motive.shift ar 1 1) fstName sndName (body.shift ar 1 2)))
  | unbox (name value body) :
      Rule ar env (.dup name (.box value) body) (.plain (body.subst ar value 0))
  | floatDup (name outer value inner body) :
      Rule ar env (.dup name (.dup outer value inner) body)
        (.under outer value (.dup name inner (body.shift ar 1 1)))
  | select (type label ctrType args self motive branches branch) :
      branches.find? label = some branch →
      Rule ar env (.caseOf type ((Term.ctr label ctrType).apply args) self motive branches)
        (.plain (branch.apply args))
  | floatCase (type name value inner self motive branches) :
      Rule ar env (.caseOf type (.dup name value inner) self motive branches)
        (.under name value (.caseOf (type.shift ar 1 0) inner self (motive.shift ar 1 1)
          (branches.map fun branch => branch.shift ar 1 0)))

variable {ar : Arith} {env : Env} {t : Term} {c : Contractum}

/-- A rule is applied where it can be. -/
theorem Rule.contract? (rule : Rule ar env t c) : t.contract? ar env = some c := by
  cases rule with
  | unfold name d found => simp [Term.contract?, found]
  | select type label ctrType args self motive branches branch found =>
      simp [Term.contract?, Term.spine_apply_ctr, found]
  | _ => rfl

/-- What is applied is one of the rules. -/
theorem rule_of_contract? (some : t.contract? ar env = some c) : Rule ar env t c := by
  unfold Term.contract? at some
  split at some
  · obtain ⟨d, found, rfl⟩ := Option.map_eq_some_iff.1 some
    exact .unfold _ d found
  · cases some
    exact .beta ..
  · cases some
    exact .floatApp ..
  · cases some
    exact .unpair ..
  · cases some
    exact .floatSplit ..
  · cases some
    exact .unbox ..
  · cases some
    exact .floatDup ..
  · -- A case analysis looks at the spine of its scrutinee.
    split at some
    · rename_i spine
      obtain ⟨branch, found, rfl⟩ := Option.map_eq_some_iff.1 some
      rw [Term.eq_apply_of_spine spine]
      exact .select _ _ _ _ _ _ _ branch found
    · rename_i spine
      obtain rfl := Option.some.inj some
      rw [Term.eq_apply_of_spine spine]
      exact .floatCase ..
    · cases some
  · cases some

/-- The rule that is looked up is the one that applies. -/
theorem contract?_iff : t.contract? ar env = some c ↔ Rule ar env t c :=
  ⟨rule_of_contract?, Rule.contract?⟩

end BoxCalculus
