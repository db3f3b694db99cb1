import BoxCalculus.Proofs.ReportNames

/-!
# The scope of a printer

A printer keeps one scope. It binds a name when it comes to a binder, and it unbinds the names again
when it has written the part that they are bound in. To find the name for a binder it adds primes for
as long as the name is taken, and nothing bounds this search. It comes to an end all the same, with
the name that `freshName` gives (`finds_iff`).

Whatever is bound and unbound, the names in scope are different names, and none of them is avoided
(`Run.fresh`). In such a scope different variables are written differently, and those that are bound
in it are not written like a name that is avoided (`separates`). A printer that avoids nothing keeps its
variables apart from some names exactly if it has the scopes of one that avoids these
(`keepsApart_iff_runsAlike`).
-/

namespace BoxCalculus.Printer

/-! ## The search for a name -/

/-- The search that starts at a name and adds a prime for as long as that is taken ends at `result`. -/
inductive PrimesTo (avoid scope : List String) : String → String → Prop
  | free {name : String} (free : taken avoid scope name = false) : PrimesTo avoid scope name name
  | prime {name result : String} (bound : taken avoid scope name = true)
      (more : PrimesTo avoid scope (name ++ "'") result) : PrimesTo avoid scope name result

/-- The name at which the search for the name of a binder starts. -/
def firstName (avoid scope : List String) (name : String) : String :=
  let base := if isName name then name else letterName (scope.length + 1)
  if taken avoid scope base then base ++ toString scope.length else base

/-- The search for the name of a binder ends at `fresh`. -/
def Finds (avoid scope : List String) (name fresh : String) : Prop :=
  PrimesTo avoid scope (firstName avoid scope name) fresh

section Search

variable {avoid scope : List String} {name result other : String}

/-- The search ends at one name only. -/
theorem PrimesTo.unique (first : PrimesTo avoid scope name result)
    (second : PrimesTo avoid scope name other) : result = other := by
  induction first with
  | free free =>
      cases second with
      | free => rfl
      | prime bound => exact Bool.noConfusion (free.symm.trans bound)
  | prime bound _ ih =>
      cases second with
      | free free => exact Bool.noConfusion (free.symm.trans bound)
      | prime _ more => exact ih more

/-- The search ends where the bounded search does if the name found there is free. -/
theorem primesTo_primedUntilFree {n : Nat}
    (free : taken avoid scope (primedUntilFree avoid scope n name) = false) :
    PrimesTo avoid scope name (primedUntilFree avoid scope n name) := by
  induction n generalizing name with
  | zero => exact .free free
  | succ n ih =>
      cases here : taken avoid scope name with
      | true =>
          rw [primedUntilFree_of_taken here] at free ⊢
          exact .prime here (ih free)
      | false =>
          rw [primedUntilFree_of_free here]
          exact .free here

/-- The search ends at the fresh name. -/
theorem finds_freshName (avoid scope : List String) (name : String) :
    Finds avoid scope name (freshName avoid scope name) := by
  unfold Finds firstName freshName
  generalize (if isName name then name else letterName (scope.length + 1)) = base
  dsimp only
  cases here : taken avoid scope base with
  | true =>
      rw [if_pos rfl, if_pos rfl]
      exact primesTo_primedUntilFree (primedUntilFree_free _ (Nat.le_refl _))
  | false =>
      rw [if_neg Bool.false_ne_true, if_neg Bool.false_ne_true]
      exact .free here

/-- The search for the name of a binder ends, at the one name that `freshName` gives. -/
theorem finds_iff : Finds avoid scope name result ↔ result = freshName avoid scope name := by
  constructor
  · intro found
    exact found.unique (finds_freshName avoid scope name)
  · rintro rfl
    exact finds_freshName avoid scope name

end Search

/-! ## Runs -/

/-- How a printer changes its scope. -/
inductive Action where
  /-- It comes to a binder with this name. -/
  | bind (name : String)
  /-- It leaves as many binders. -/
  | unbind (count : Nat)

/-- One action of a printer that avoids some names, and what is in scope before and after it. More
names than there are in scope cannot be unbound. -/
inductive Step (avoid : List String) : List String → Action → List String → Prop
  | bind {scope : List String} {name fresh : String} (found : Finds avoid scope name fresh) :
      Step avoid scope (.bind name) (fresh :: scope)
  | unbind {scope : List String} {count : Nat} (le : count ≤ scope.length) :
      Step avoid scope (.unbind count) (scope.drop count)

/-- A printer that has one scope does these actions and has the other scope after them. -/
inductive Run (avoid : List String) : List String → List Action → List String → Prop
  | nil (scope : List String) : Run avoid scope [] scope
  | cons {scope next final : List String} {action : Action} {actions : List Action}
      (step : Step avoid scope action next) (rest : Run avoid next actions final) :
      Run avoid scope (action :: actions) final

section Runs

variable {avoid scope middle final other : List String} {action : Action}
  {actions more : List Action}

/-- A single action is a run. -/
theorem Step.run (step : Step avoid scope action final) : Run avoid scope [action] final :=
  .cons step (.nil final)

/-- A run can be continued by another. -/
theorem Run.append (first : Run avoid scope actions middle) (second : Run avoid middle more final) :
    Run avoid scope (actions ++ more) final := by
  induction first with
  | nil => exact second
  | cons step _ ih => exact .cons step (ih second)

/-- An action has one outcome only. -/
theorem Step.unique (first : Step avoid scope action final) (second : Step avoid scope action other) :
    final = other := by
  cases first with
  | bind found =>
      cases second with
      | bind found' => rw [found.unique found']
  | unbind =>
      cases second with
      | unbind => rfl

/-- A run has one outcome only. -/
theorem Run.unique (first : Run avoid scope actions final) (second : Run avoid scope actions other) :
    final = other := by
  induction first with
  | nil =>
      cases second with
      | nil => rfl
  | cons step _ ih =>
      cases second with
      | cons step' rest =>
          obtain rfl := step.unique step'
          exact ih rest

/-- A part of a run is a run. -/
theorem Run.of_append (run : Run avoid scope (actions ++ more) final) :
    ∃ middle, Run avoid scope actions middle ∧ Run avoid middle more final := by
  induction actions generalizing scope with
  | nil => exact ⟨scope, .nil scope, run⟩
  | cons action actions ih =>
      cases run with
      | cons step rest =>
          obtain ⟨middle, first, second⟩ := ih rest
          exact ⟨middle, .cons step first, second⟩

/-- An action leaves different names in scope that are not avoided. -/
theorem Step.fresh (step : Step avoid scope action final) (fresh : Fresh avoid scope) :
    Fresh avoid final := by
  cases step with
  | bind found =>
      obtain rfl := finds_iff.1 found
      exact fresh.cons _
  | unbind =>
      exact ⟨fun name mem => fresh.named name (List.mem_of_mem_drop mem),
        fun name mem => fresh.apart name (List.mem_of_mem_drop mem),
        fresh.nodup.sublist (List.drop_sublist _ _)⟩

/-- A run keeps the names in scope different, and apart from those that are avoided. -/
theorem Run.fresh (run : Run avoid scope actions final) (fresh : Fresh avoid scope) :
    Fresh avoid final := by
  induction run with
  | nil => exact fresh
  | cons step _ ih => exact ih (step.fresh fresh)

end Runs

/-! ## Variables in scope -/

/-- The variables of a scope are written differently, and those that it binds are not written like a
name that is avoided. -/
structure Separates (avoid scope : List String) : Prop where
  fresh : Fresh avoid scope
  var_inj : ∀ {i j : Nat} {s s' : Bool},
    (Term.var i).text avoid scope s = (Term.var j).text avoid scope s' → i = j
  var_ne_ref : ∀ {i : Nat} {s s' : Bool} {r : String}, i < scope.length → r ∈ avoid →
    (Term.var i).text avoid scope s ≠ (Term.ref r).text avoid scope s'

section Variables

variable {avoid scope : List String} {i j : Nat} {s s' : Bool}

/-- A bound variable is written as its name. -/
theorem text_var_of_lt (bound : i < scope.length) : (Term.var i).text avoid scope s = scope[i] := by
  rw [Term.text.eq_def]
  simp only [Int.natCast_nonneg, if_true, Int.toNat_natCast, List.getElem?_eq_getElem bound]

/-- A free variable is written as a number behind a `#`. -/
theorem text_var_of_le (free : scope.length ≤ i) :
    (Term.var i).text avoid scope s = "#" ++ toString (i - scope.length) := by
  rw [Term.text.eq_def]
  simp only [Int.natCast_nonneg, if_true, Int.toNat_natCast, List.getElem?_eq_none free]
  rw [← Int.natCast_sub free]
  rfl

/-- Different numbers are written differently. -/
theorem toString_inj {m n : Nat} (same : toString m = toString n) : m = n := by
  have digits := congrArg (fun text : String => Nat.ofDigitChars 10 text.toList 0) same
  simpa [Nat.toString_eq_ofList_toDigits] using digits

/-- No name starts with a `#`. -/
theorem isName_hash_append (text : String) : isName ("#" ++ text) = false := by
  have hash : isWord ("#" ++ text) = false := by
    rw [isWord, String.toList_append]
    rfl
  rw [isName, hash, Bool.false_and]

/-- A variable that the scope binds is not written like one that it does not bind. -/
theorem text_var_ne_of_le (fresh : Fresh avoid scope) (bound : i < scope.length)
    (free : scope.length ≤ j) :
    (Term.var i).text avoid scope s ≠ (Term.var j).text avoid scope s' := by
  intro same
  rw [text_var_of_lt bound, text_var_of_le free] at same
  have named := fresh.named _ (List.getElem_mem bound)
  rw [same, isName_hash_append] at named
  exact Bool.noConfusion named

/-- In a fresh scope variables are written differently. -/
theorem separates (fresh : Fresh avoid scope) : Separates avoid scope where
  fresh := fresh
  var_inj {i j s s'} same := by
    rcases Nat.lt_or_ge i scope.length with bound | free
    · rcases Nat.lt_or_ge j scope.length with bound' | free'
      · rw [text_var_of_lt bound, text_var_of_lt bound'] at same
        exact (fresh.nodup.getElem_inj_iff).1 same
      · exact absurd same (text_var_ne_of_le fresh bound free')
    · rcases Nat.lt_or_ge j scope.length with bound' | free'
      · exact absurd same.symm (text_var_ne_of_le fresh bound' free)
      · rw [text_var_of_le free, text_var_of_le free', String.append_right_inj] at same
        have := toString_inj same
        omega
  var_ne_ref {i s s' r} bound avoided same := by
    have written : (Term.ref r).text avoid scope s' = r := by rw [Term.text.eq_def]
    rw [text_var_of_lt bound, written] at same
    exact fresh.apart _ (List.getElem_mem bound) (same ▸ avoided)

end Variables

/-! ## Moments of a run -/

/-- At each moment of these actions, a printer that avoids some names has a scope whose variables are
written differently from each other and from the given names. -/
def KeepsApart (avoid names scope : List String) (actions : List Action) : Prop :=
  ∀ before, before <+: actions → ∃ next, Run avoid scope before next ∧ Separates names next

/-- At each moment of these actions, a printer that avoids nothing has the scope of one that avoids these
names. -/
def RunsAlike (names scope : List String) (actions : List Action) : Prop :=
  ∀ before next, before <+: actions → Run [] scope before next → Run names scope before next

section Moments

variable {avoid names scope final : List String} {action : Action} {actions : List Action}

/-- At each moment of a run there is a scope. -/
theorem Run.moment (run : Run avoid scope actions final) {before : List Action}
    (part : before <+: actions) : ∃ next, Run avoid scope before next := by
  obtain ⟨after, rfl⟩ := part
  obtain ⟨next, first, -⟩ := run.of_append
  exact ⟨next, first⟩

/-- A printer keeps its variables apart from the names that it avoids. -/
theorem Run.keepsApart (run : Run avoid scope actions final) (fresh : Fresh avoid scope) :
    KeepsApart avoid avoid scope actions := by
  intro before part
  obtain ⟨next, first⟩ := run.moment part
  exact ⟨next, first, separates (first.fresh fresh)⟩

/-- An action whose outcome has none of some names is the action that avoids them. -/
theorem Step.avoiding (step : Step [] scope action final) (clear : ∀ name ∈ final, name ∉ names) :
    Step names scope action final := by
  cases step with
  | bind found =>
      obtain rfl := finds_iff.1 found
      have apart := clear _ List.mem_cons_self
      exact .bind (finds_iff.2 (freshName_avoiding apart).symm)
  | unbind le => exact .unbind le

/-- A run on which none of some names comes up is the run that avoids them. -/
theorem Run.avoiding (run : Run [] scope actions final)
    (clear : ∀ before next, before <+: actions → Run [] scope before next →
      ∀ name ∈ next, name ∉ names) : Run names scope actions final := by
  induction run with
  | nil scope => exact .nil scope
  | @cons scope next final action actions step rest ih =>
      have here := clear [action] next (List.prefix_append [action] actions) step.run
      refine .cons (step.avoiding here) (ih fun before later part run => ?_)
      exact clear (action :: before) later ((List.prefix_cons_inj action).2 part) (.cons step run)

/-- A printer that avoids nothing keeps its variables apart from some names exactly if it starts so and
avoiding these names changes nothing. -/
theorem keepsApart_iff_runsAlike (run : Run [] scope actions final) (fresh : Fresh [] scope) :
    KeepsApart [] names scope actions ↔
      (∀ name ∈ scope, name ∉ names) ∧ RunsAlike names scope actions := by
  constructor
  · intro apart
    -- The scope of a moment is unique, so it is the one that is kept apart.
    have clear : ∀ before next, before <+: actions → Run [] scope before next →
        ∀ name ∈ next, name ∉ names := by
      intro before next part first
      obtain ⟨_, second, separates⟩ := apart before part
      obtain rfl := first.unique second
      exact separates.fresh.apart
    refine ⟨clear [] scope (List.nil_prefix) (.nil scope), fun before next part first => ?_⟩
    exact first.avoiding fun less later shorter => clear less later (shorter.trans part)
  · rintro ⟨clear, alike⟩ before part
    obtain ⟨next, first⟩ := run.moment part
    have start : Fresh names scope := ⟨fresh.named, clear, fresh.nodup⟩
    exact ⟨next, first, separates ((alike before next part first).fresh start)⟩

namespace RunsAlike

variable {middle : List String} {first second : List Action} {name : String}

/-- What runs alike does so up to a moment. -/
theorem left (alike : RunsAlike names scope (first ++ second)) : RunsAlike names scope first :=
  fun before next part => alike before next (part.trans (List.prefix_append first second))

/-- What runs alike does so from a moment on. -/
theorem right (alike : RunsAlike names scope (first ++ second)) (run : Run [] scope first middle) :
    RunsAlike names middle second := by
  intro before next part rest
  have whole := alike (first ++ before) next ((List.prefix_append_right_inj first).2 part)
    (run.append rest)
  obtain ⟨reached, start, rest'⟩ := whole.of_append
  obtain rfl := start.unique (alike first middle (List.prefix_append first second) run)
  exact rest'

/-- Where avoiding some names changes nothing, a binder gets the name that it gets anyway. -/
theorem freshName_eq (alike : RunsAlike names scope (.bind name :: second)) :
    freshName names scope name = freshName [] scope name := by
  have bound : Run [] scope [.bind name] (freshName [] scope name :: scope) :=
    (Step.bind (finds_freshName [] scope name)).run
  have avoided : Run names scope [.bind name] (freshName names scope name :: scope) :=
    (Step.bind (finds_freshName names scope name)).run
  have same := avoided.unique (alike [.bind name] _ (List.prefix_append [.bind name] second) bound)
  exact (List.cons.inj same).1

/-- What runs alike does so after a name has been bound. -/
theorem of_bind (alike : RunsAlike names scope (.bind name :: second)) :
    RunsAlike names (freshName [] scope name :: scope) second := by
  have whole : RunsAlike names scope ([.bind name] ++ second) := alike
  exact whole.right (Step.bind (finds_freshName [] scope name)).run

end RunsAlike

end Moments

end BoxCalculus.Printer
