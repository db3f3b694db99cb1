import BoxCalculus.Proofs.BookExtension
import BoxCalculus.Proofs.FuelThreshold
import BoxCalculus.Proofs.Gaps
import BoxCalculus.Proofs.RoundTrip.Reading

/-!
# The names of variables in error reports

A report shows the terms of an error and a block with the context that they stand in. Each of the
terms is written by itself: the variables of the context get names that differ from each other and
from the references of that term. The block gives its names without regard to references.

The names in the line of a term are those of the block exactly if no reference of the term has a name
of the block (`scopeOf_eq_iff`). So the report has one name for each variable, which no reference
shares, exactly if no reference that it shows has a name of the block (`report_names_agree_iff`). What
the report refers to is referred to by the checked term, its type, the context or a definition.
-/

namespace BoxCalculus

/-! ## Terms with their variables named -/

/-- The variable `i` below `depth` inner binders, as a reference to its name if it is one of the named
variables. -/
def nameVar (names : List String) (depth : Nat) (i : Int) : Term :=
  match if (depth : Int) ≤ i then names[(i - depth).toNat]? else none with
  | some name => .ref name
  | none => .var i

/-- The term with each of the named variables replaced by a reference to its name. -/
def Term.nameVars (names : List String) (t : Term) : Term :=
  t.bindVars (nameVar names) 0

/-- Naming a variable makes no gap. -/
theorem isHole_nameVar (names : List String) (depth : Nat) (i : Int) :
    (nameVar names depth i).isHole = false := by
  unfold nameVar
  split <;> rfl

/-- A variable is written as its name is. -/
theorem text_nameVar (avoid : List String) {names scope : List String} {depth : Nat}
    (outer : scope.drop depth = names) (i : Int) (inSpine : Bool) :
    (nameVar names depth i).text avoid scope inSpine = (Term.var i).text avoid scope inSpine := by
  cases found : if (depth : Int) ≤ i then names[(i - depth).toNat]? else none with
  | none =>
      have kept : nameVar names depth i = .var i := by rw [nameVar, found]
      rw [kept]
  | some name =>
      have replaced : nameVar names depth i = .ref name := by rw [nameVar, found]
      rw [replaced, Term.text.eq_def _ (.ref name), Term.text.eq_def _ (.var i)]
      rw [Option.ite_none_right_eq_some, ← outer, List.getElem?_drop] at found
      obtain ⟨below, found⟩ := found
      have nonneg : 0 ≤ i := by omega
      have same : depth + (i - depth).toNat = i.toNat := by omega
      simp only [if_pos nonneg, ← same, found]

mutual

/-- A term is written in the same way when the variables are replaced that the scope has names for. -/
theorem Term.text_bindVars (avoid : List String) {names : List String} (t : Term)
    {scope : List String} {depth : Nat} (outer : scope.drop depth = names) (inSpine : Bool) :
    (t.bindVars (nameVar names) depth).text avoid scope inSpine = t.text avoid scope inSpine := by
  cases t with
  | var i => exact text_nameVar avoid outer i inSpine
  | hole | univ | ref => rw [Term.bindVars]
  | _ =>
      rw [Term.bindVars, Term.text.eq_def]
      conv_rhs => rw [Term.text.eq_def]
      simp [Term.isHole_bindVars (isHole_nameVar names), outer, Term.text_bindVars,
        Entries.texts_bindVars]

/-- Entries are written alike when their free variables have been named. -/
theorem Entries.texts_bindVars (avoid : List String) {names : List String} (separator : String)
    (entries : Entries) {scope : List String} {depth : Nat} (outer : scope.drop depth = names) :
    (entries.bindVars (nameVar names) depth).texts avoid separator scope =
      entries.texts avoid separator scope := by
  cases entries <;>
    simp [Entries.bindVars, Entries.texts, outer, Term.text_bindVars, Entries.texts_bindVars]

end

/-- A term is written alike when its free variables have been named. -/
theorem Term.text_nameVars (avoid names : List String) (t : Term) (inSpine : Bool) :
    (t.nameVars names).text avoid names inSpine = t.text avoid names inSpine :=
  t.text_bindVars avoid List.drop_zero inSpine

/-! ## The names of a context -/

section Avoiding

variable {avoid scope : List String} {name : String}

/-- A name that is not avoided is taken only if it is in scope. -/
theorem taken_eq (apart : name ∉ avoid) : taken avoid scope name = taken [] scope name := by
  simp [taken, apart]

/-- A name that is in scope is taken whatever is avoided. -/
theorem taken_of_nil (bound : taken [] scope name = true) : taken avoid scope name = true := by
  simp only [taken, List.contains_nil, Bool.or_false, Bool.or_eq_true] at bound ⊢
  exact bound.imp_left .inl

/-- A name that is free gets no prime. -/
theorem primedUntilFree_of_free (free : taken avoid scope name = false) (n : Nat) :
    primedUntilFree avoid scope n name = name := by
  cases n with
  | zero => rfl
  | succ n => simp [primedUntilFree, free]

/-- A name that is taken gets a prime. -/
theorem primedUntilFree_of_taken (bound : taken avoid scope name = true) (n : Nat) :
    primedUntilFree avoid scope (n + 1) name = primedUntilFree avoid scope n (name ++ "'") := by
  rw [primedUntilFree, if_pos bound]

/-- The name that is found by adding primes is found as well if other names have to be avoided. -/
theorem primedUntilFree_avoiding {n m : Nat} (le : n ≤ m)
    (free : taken [] scope (primedUntilFree [] scope n name) = false)
    (apart : primedUntilFree [] scope n name ∉ avoid) :
    primedUntilFree avoid scope m name = primedUntilFree [] scope n name := by
  -- The candidates are tried in the same order, and those before the one found are taken anyway.
  induction n generalizing m name with
  | zero => exact primedUntilFree_of_free ((taken_eq apart).trans free) m
  | succ n ih =>
      obtain ⟨m, rfl⟩ : ∃ m', m = m' + 1 := ⟨m - 1, by omega⟩
      cases here : taken [] scope name with
      | true =>
          rw [primedUntilFree_of_taken here] at free apart ⊢
          rw [primedUntilFree_of_taken (taken_of_nil here)]
          exact ih (Nat.le_of_succ_le_succ le) free apart
      | false =>
          rw [primedUntilFree_of_free here] at apart ⊢
          exact primedUntilFree_of_free ((taken_eq apart).trans here) (m + 1)

/-- A binder has the same name if names have to be avoided that are not the one it has. -/
theorem freshName_avoiding (apart : freshName [] scope name ∉ avoid) :
    freshName avoid scope name = freshName [] scope name := by
  unfold freshName at apart ⊢
  generalize (if isName name then name else letterName (scope.length + 1)) = base at apart ⊢
  cases here : taken [] scope base with
  | true =>
      -- Both look for primes, and more of them may be tried if there are names to avoid.
      simp only [here, taken_of_nil here, if_true] at apart ⊢
      refine primedUntilFree_avoiding ?_ (primedUntilFree_free _ (Nat.le_refl _)) apart
      rw [List.length_nil]
      omega
  | false =>
      simp only [here, Bool.false_eq_true, if_false] at apart ⊢
      rw [taken_eq apart, here, if_neg Bool.false_ne_true]

end Avoiding

namespace Context

/-- A context has as many names in scope as bindings. -/
theorem length_scopeOf (avoid : List String) : ∀ bindings : List Binding,
    (scopeOf avoid bindings).length = bindings.length
  | [] => rfl
  | _ :: outer => congrArg (· + 1) (length_scopeOf avoid outer)

/-- The names of a context are different, and none of them is avoided. -/
theorem fresh_scopeOf (avoid : List String) : ∀ bindings : List Binding,
    Fresh avoid (scopeOf avoid bindings)
  | [] => .nil avoid
  | binding :: outer => (fresh_scopeOf avoid outer).cons binding.name

/-- The binders have the same names when names are avoided exactly if these are not among them. -/
theorem scopeOf_eq_iff {avoid : List String} {bindings : List Binding} :
    scopeOf avoid bindings = scopeOf [] bindings ↔
      ∀ name ∈ scopeOf [] bindings, name ∉ avoid := by
  constructor
  · intro same
    rw [← same]
    exact (fresh_scopeOf avoid bindings).apart
  · intro apart
    induction bindings with
    | nil => rfl
    | cons binding outer ih =>
        obtain ⟨here, there⟩ := List.forall_mem_cons.1 apart
        show freshName avoid (scopeOf avoid outer) binding.name :: scopeOf avoid outer =
          freshName [] (scopeOf [] outer) binding.name :: scopeOf [] outer
        rw [ih there, freshName_avoiding here]

/-- The lines of the context block, where the binders have the given names. -/
def linesBy : List Binding → (names : List String) → List String
  | binding :: outer, name :: names =>
      (name ++ " : " ++ (binding.type.nameVars names).text [] names false) :: linesBy outer names
  | _, _ => []

/-- The lines of a context are written with its names. -/
theorem linesOf_eq : ∀ bindings : List Binding,
    linesOf bindings = linesBy bindings (scopeOf [] bindings)
  | [] => rfl
  | binding :: outer => by
      show _ :: linesOf outer = _ :: linesBy outer (scopeOf [] outer)
      rw [Term.text_nameVars, linesOf_eq outer]

/-- The block that shows the context in a report, where the binders have the given names. -/
def blockBy (ctx : Context) (names : List String) : String :=
  if ctx.length = 0 then ""
  else "\n[context]\n" ++ "\n".intercalate (linesBy ctx.bindings names).reverse

/-- The text of a context has a line for each binding, the outermost first. -/
theorem print?_eq {ctx : Context} {text : String} (printed : ctx.print? = some text) :
    text = "\n".intercalate (linesBy ctx.bindings (scopeOf [] ctx.bindings)).reverse := by
  unfold print? at printed
  split at printed
  · rw [← linesOf_eq]
    exact (Option.some.inj printed).symm
  · cases printed

end Context

/-! ## Reports -/

/-- The wording of a part of the error, where the variables have the given names. -/
def TypeError.partBy (names : List String) (before after : String) : Option Term → String
  | none => ""
  | some t => before ++ (t.nameVars names).text t.refs names false ++ after

/-- The wording of the error, where each variable of the context has one of the given names. -/
def TypeError.messageBy (e : TypeError) (names : List String) : String :=
  let name := if e.name = "" then "" else " " ++ Text.quoted e.name
  e.kind.text ++ name ++ partBy names " on `" "`" e.term? ++
    partBy names "\n- expect: " "" e.expected? ++ partBy names "\n- actual: " "" e.actual? ++
    e.context.blockBy names

/-- The terms that are shown in a report: those of the error and the types in its context. -/
def TypeError.shown (e : TypeError) : List Term :=
  e.terms ++ e.context.bindings.map Binding.type

/-- The report has one name for each variable of the context, in all of its lines, and these names
differ from each other and from the references that are shown. -/
structure TypeError.NamesVariables (e : TypeError) (names : List String) : Prop where
  message : e.message? = some (e.messageBy names)
  length_eq : names.length = e.context.length
  nodup : names.Nodup
  apart : ∀ name ∈ names, ∀ t ∈ e.shown, name ∉ t.refs

/-- A term is written with the names that differ from its own references. -/
theorem Term.printIn?_eq {t : Term} {ctx : Context} {text : String}
    (printed : t.printIn? ctx = some text) :
    text = (t.nameVars (Context.scopeOf t.refs ctx.bindings)).text t.refs
      (Context.scopeOf t.refs ctx.bindings) false := by
  rw [Term.text_nameVars]
  unfold Term.printIn? at printed
  split at printed
  · cases printed
  · exact (Option.some.inj printed).symm

namespace TypeError

variable {e : TypeError} {text : String}

/-- What a report consists of. -/
theorem parts_of_message? (report : e.message? = some text) :
    ∃ subject expected actual block, part? e.context " on `" "`" e.term? = some subject ∧
      part? e.context "\n- expect: " "" e.expected? = some expected ∧
      part? e.context "\n- actual: " "" e.actual? = some actual ∧
      (if e.context.length = 0 then some "" else e.context.print?.map ("\n[context]\n" ++ ·)) =
        some block ∧
      text = e.kind.text ++ (if e.name = "" then "" else " " ++ Text.quoted e.name) ++ subject ++
        expected ++ actual ++ block := by
  simp only [message?, Option.bind_eq_bind, Option.bind_eq_some_iff, Option.pure_def] at report
  obtain ⟨subject, term_part, expected, expected_part, actual, actual_part, rest⟩ := report
  refine ⟨subject, expected, actual, ?_⟩
  -- A closed term is reported without a block.
  split at rest
  · rename_i closed
    exact ⟨"", term_part, expected_part, actual_part, if_pos closed, (Option.some.inj rest).symm⟩
  · rename_i inner
    obtain ⟨block, shown, rest⟩ := Option.bind_eq_some_iff.1 rest
    exact ⟨block, term_part, expected_part, actual_part, (if_neg inner).trans shown,
      (Option.some.inj rest).symm⟩

/-- The term of a part that is written can be printed. -/
theorem printed_of_part? {ctx : Context} {before after : String} {t? : Option Term}
    (part : part? ctx before after t? = some text) :
    ∀ t ∈ t?.toList, ∃ line, t.printIn? ctx = some line := by
  cases t? with
  | none => exact List.forall_mem_nil _
  | some t =>
      obtain ⟨line, printed, -⟩ := Option.map_eq_some_iff.1 part
      exact List.forall_mem_singleton.2 ⟨line, printed⟩

/-- Each term of a report has a line. -/
theorem printed_of_message? (report : e.message? = some text) :
    ∀ t ∈ e.terms, ∃ line, t.printIn? e.context = some line := by
  obtain ⟨_, _, _, _, term_part, expected_part, actual_part, -⟩ := parts_of_message? report
  rw [terms, List.forall_mem_append, List.forall_mem_append]
  exact ⟨⟨printed_of_part? term_part, printed_of_part? expected_part⟩, printed_of_part? actual_part⟩

/-- A part is written with the names of the context, if they are no references of its term. -/
theorem part?_eq {ctx : Context} {before after : String} {t? : Option Term}
    (part : part? ctx before after t? = some text)
    (apart : ∀ t ∈ t?.toList, ∀ name ∈ Context.scopeOf [] ctx.bindings, name ∉ t.refs) :
    text = partBy (Context.scopeOf [] ctx.bindings) before after t? := by
  cases t? with
  | none => exact (Option.some.inj part).symm
  | some t =>
      obtain ⟨line, printed, rfl⟩ := Option.map_eq_some_iff.1 part
      have same := Context.scopeOf_eq_iff.2 (apart t (List.mem_singleton_self t))
      rw [Term.printIn?_eq printed, same]
      rfl

/-- The block of a context is written with its names. -/
theorem block_eq {block : String}
    (shown : (if e.context.length = 0 then some ""
      else e.context.print?.map ("\n[context]\n" ++ ·)) = some block) :
    block = e.context.blockBy (Context.scopeOf [] e.context.bindings) := by
  unfold Context.blockBy
  split at shown
  · rename_i closed
    rw [if_pos closed]
    exact (Option.some.inj shown).symm
  · rename_i inner
    obtain ⟨lines, printed, rfl⟩ := Option.map_eq_some_iff.1 shown
    rw [if_neg inner, Context.print?_eq printed]

/-- The names of the context block are the names of the variables in the whole report if no reference
that is shown has one of them. -/
theorem namesVariables_of_apart (report : e.message? = some text)
    (apart : ∀ name ∈ Context.scopeOf [] e.context.bindings, ∀ t ∈ e.shown, name ∉ t.refs) :
    e.NamesVariables (Context.scopeOf [] e.context.bindings) := by
  refine ⟨?_, Context.length_scopeOf [] _, (Context.fresh_scopeOf [] _).nodup, apart⟩
  have each : ∀ t ∈ e.terms, ∀ name ∈ Context.scopeOf [] e.context.bindings, name ∉ t.refs :=
    fun t mem name bound => apart name bound t (List.mem_append_left _ mem)
  rw [terms, List.forall_mem_append, List.forall_mem_append] at each
  obtain ⟨⟨term_apart, expected_apart⟩, actual_apart⟩ := each
  obtain ⟨subject, expected, actual, block, term_part, expected_part, actual_part, shown, rfl⟩ :=
    parts_of_message? report
  rw [report, messageBy, ← part?_eq term_part term_apart, ← part?_eq expected_part expected_apart,
    ← part?_eq actual_part actual_apart, ← block_eq shown]

end TypeError

/-! ## References of errors -/

/-- A condition on the references of terms. -/
def refsIn_condition (ar : Arith) {env : Env} {R : String → Prop}
    (defs : ∀ name d, env name = some d → ∀ r ∈ d.refs, R r) : Condition ar env env where
  holds _ t := LeavesIn (fun _ => True) R t
  parts _ _ compound := leavesIn_iff compound
  bound _ _ _ := leavesIn_var trivial
  shift _ delta cutoff _ leaves := leaves.shift (fun _ _ => trivial) delta cutoff
  move _ i _ leaves := leaves.shift (fun _ _ => trivial) (ar.add i 1) 0
  subst _ _ _ leaves value := leaves.subst (fun _ _ => trivial) value 0
  unfold _ name d _ found := leavesIn_iff_refs.2 (defs name d found)
  agree _ _ _ := rfl

section Refs

variable {ar : Arith} {env : Env} {R : String → Prop}
  (defs : ∀ name d, env name = some d → ∀ r ∈ d.refs, R r)

/-- The condition on the references of a context is one on those of each type. -/
theorem refsIn_bindings_iff : ∀ bindings : List Binding,
    (refsIn_condition ar defs).bindings bindings ↔
      ∀ binding ∈ bindings, ∀ r ∈ binding.type.refs, R r
  | [] => iff_of_true trivial (List.forall_mem_nil _)
  | binding :: outer => by
      rw [List.forall_mem_cons, ← refsIn_bindings_iff outer]
      exact and_congr_left fun _ => leavesIn_iff_refs

/-- What is referred to in the terms and the context of an error. -/
theorem refs_of_error {ctx : Context} {e : TypeError} (error : (refsIn_condition ar defs).Error ctx e) :
    ∀ t ∈ e.shown, ∀ r ∈ t.refs, R r := by
  rw [TypeError.shown, List.forall_mem_append, List.forall_mem_map]
  refine ⟨fun t mem => leavesIn_iff_refs.1 (error.terms t mem), ?_⟩
  exact (refsIn_bindings_iff defs _).1 error.context

end Refs

/-- Each line of an error report names the variables of the context apart from each other and from its
own references, with the names of the context block exactly if its references have none of these. So
the report has one name for each variable, which no reference has, exactly if no reference that is
shown has a name of the block. All that is shown is referred to by the definitions, the context, the
term or its type; the report is in order if these refer to no name of the block. -/
theorem report_names_agree_iff {R : String → Prop} (k : Kernel)
    (defs : ∀ name d, k.env name = some d → ∀ r ∈ d.refs, R r) (canceled : Bool) (ctx : Context)
    (t type : Term) (context : ∀ binding ∈ ctx.bindings, ∀ r ∈ binding.type.refs, R r)
    (term : ∀ r ∈ t.refs, R r) (expected : ∀ r ∈ type.refs, R r) {e : TypeError} {text : String}
    (failed : k.inferIn canceled t ctx = .error (.typing e) ∨
      k.check canceled t type = .error (.typing e))
    (report : e.message? = some text) :
    let names := Context.scopeOf [] e.context.bindings
    (∀ u ∈ e.terms, ∃ own line, u.printIn? e.context = some line ∧
      line = (u.nameVars own).text u.refs own false ∧ own.length = e.context.length ∧
      Fresh u.refs own ∧ (own = names ↔ ∀ name ∈ names, name ∉ u.refs)) ∧
    (e.NamesVariables names ↔ ∀ name ∈ names, ∀ u ∈ e.shown, name ∉ u.refs) ∧
    (∀ u ∈ e.shown, ∀ r ∈ u.refs, R r) ∧
    ((∀ name ∈ names, ¬ R name) → e.NamesVariables names) := by
  intro names
  -- The checker moves references around and unfolds them, which leads to none outside of `R`.
  have shown : ∀ u ∈ e.shown, ∀ r ∈ u.refs, R r := by
    let C := refsIn_condition k.arith defs
    have holds (n : Nat) : C.holds n t := leavesIn_iff_refs.2 term
    rcases failed with inferred | checked
    · have context' : C.context ctx := (refsIn_bindings_iff defs _).2 context
      exact refs_of_error defs
        ((C.infer context' (holds _)).error (Checking.error_of_run' inferred))
    · have closed : C.context .empty := trivial
      have expected' : C.holds 0 type := leavesIn_iff_refs.2 expected
      exact refs_of_error defs
        ((C.check closed (holds 0) expected').error (Checking.error_of_run' checked))
  refine ⟨fun u mem => ?_, ⟨TypeError.NamesVariables.apart, ?_⟩, shown, fun outside => ?_⟩
  · obtain ⟨line, printed⟩ := TypeError.printed_of_message? report u mem
    exact ⟨_, line, printed, Term.printIn?_eq printed, Context.length_scopeOf _ _,
      Context.fresh_scopeOf _ _, Context.scopeOf_eq_iff⟩
  · exact TypeError.namesVariables_of_apart report
  · refine TypeError.namesVariables_of_apart report fun name bound u mem inside => ?_
    exact outside name bound (shown u mem name inside)

/-- Below two binders `x`, the variable is no function that could be applied to `foo`. The inner `x`
is numbered, in all lines. -/
theorem report_names_agree_repeated :
    let ctx : Context := ⟨[⟨"x", .univ⟩, ⟨"x", .univ⟩]⟩
    let t : Term := .app false (.var 0) (.ref "foo")
    let e : TypeError := ⟨.nonFunctionApplication, "", some t, none, some .univ, ctx⟩
    ({} : Kernel).inferIn false t ctx = .error (.typing e) ∧
      e.message? = some ("non-function application on `(x1 foo)`\n- actual: Type\n[context]\n" ++
        "x : Type\nx1 : Type") ∧
      e.NamesVariables ["x1", "x"] := by
  intro ctx t e
  have failed : ({} : Kernel).inferIn false t ctx = .error (.typing e) := rfl
  have report : e.message? = some ("non-function application on `(x1 foo)`\n- actual: Type\n" ++
      "[context]\nx : Type\nx1 : Type") := by
    decide +kernel
  have names : Context.scopeOf [] e.context.bindings = ["x1", "x"] := by decide +kernel
  have refs : ∀ r ∈ t.refs, r = "foo" := List.forall_mem_singleton.2 rfl
  have context : ∀ binding ∈ ctx.bindings, ∀ r ∈ binding.type.refs, r = "foo" := by
    simp [ctx, Term.refs]
  have defs : ∀ name d, Env.empty name = some d → ∀ r ∈ d.refs, r = "foo" := by
    intro name d found
    cases found
  obtain ⟨-, -, -, agree⟩ := report_names_agree_iff (R := (· = "foo")) {} defs false ctx t .univ
    context refs (List.forall_mem_nil _) (.inl failed) report
  rw [names] at agree
  exact ⟨failed, report, agree (by decide)⟩

/-- In `let y = foo in [foo : Type] (foo [z : y] z)` the reference `foo` is put below the binder `foo`.
The variable is `foo` in the context block, and `foo0` in the line of the term, where `foo` is the
reference. -/
theorem report_names_differ :
    let body : Term := .app false (.var 0) (.lam false "z" (.ref "foo") (.var 0))
    let t : Term := .lam false "foo" .univ body
    let e : TypeError :=
      ⟨.nonFunctionApplication, "", some body, none, some .univ, ⟨[⟨"foo", .univ⟩]⟩⟩
    parseTerm .word "" "let y = foo in [foo : Type] (foo [z : y] z)" = .ok t ∧
      ({} : Kernel).infer false t = .error (.typing e) ∧
      e.message? = some ("non-function application on `(foo0 [z : foo] z)`\n- actual: Type\n" ++
        "[context]\nfoo : Type") ∧
      ¬ e.NamesVariables (Context.scopeOf [] e.context.bindings) := by
  intro body t e
  refine ⟨rfl, rfl, by decide +kernel, fun named => ?_⟩
  have bound : "foo" ∈ Context.scopeOf [] e.context.bindings := by decide +kernel
  exact named.apart "foo" bound _ List.mem_cons_self (by decide)

end BoxCalculus
