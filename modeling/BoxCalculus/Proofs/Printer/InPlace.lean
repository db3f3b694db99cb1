import BoxCalculus.Proofs.Printer.Scope

/-!
# Printing in place

`Term.text` is told what is in scope. The printers here have a state with one scope, which they change
by binding and unbinding names, and with a record of these actions (`Printing`). They fail where there
is nothing to unbind or where a variable is negative.

A printer that comes to a term writes its text, binds and unbinds what `Term.actions` lists and has the
scope that it had at first (`performs_write`). The same goes for the text of a term in a context and for
the text of a context, except that what is bound for the context stays in scope. So the scopes are those
of a run, and variables are kept apart from each other and from the references of the term.

For the text of a context no references are avoided. There variables are kept apart from the references
of a type exactly if the printer of that type in its own context has the same scopes, and so writes the
same text (`text_of_runsAlike`). All of this is put together in `scope_invariant`.
-/

namespace BoxCalculus

namespace Printer

/-! ## Printers -/

/-- What a printer has in scope, the innermost first, and how it has come to that. -/
structure State where
  scope : List String
  past : List Action

/-- Computations of a printer. -/
abbrev Printing (α : Type) := StateT State Option α

/-- Bind a name that is not taken, made from the name of a binder. -/
def bindName (avoid : List String) (name : String) : Printing String := do
  let state ← get
  let fresh := freshName avoid state.scope name
  set (⟨fresh :: state.scope, state.past ++ [.bind name]⟩ : State)
  pure fresh

/-- Drop the innermost names. -/
def unbind (count : Nat) : Printing Unit := do
  let state ← get
  if count ≤ state.scope.length then
    set (⟨state.scope.drop count, state.past ++ [.unbind count]⟩ : State)
  else failure

/-- Write a variable. -/
def writeVar (index : Int) : Printing String := do
  let state ← get
  if 0 ≤ index then
    match state.scope[index.toNat]? with
    | some name => pure name
    | none => pure ("#" ++ toString (index - state.scope.length))
  else failure

/-- Write a part in the scope of one more binder. -/
def under {α : Type} (avoid : List String) (name : String) (inner : Printing α) :
    Printing (String × α) := do
  let fresh ← bindName avoid name
  let part ← inner
  unbind 1
  pure (fresh, part)

mutual

/-- Write a term. An application inside a spine stands without parentheses of its own. -/
def write (avoid : List String) : Term → (inSpine : Bool) → Printing String
  | .hole, _ => pure "?"
  | .var index, _ => writeVar index
  | .univ, _ => pure "Type"
  | .ref name, _ => pure name
  | .pi erased name dom cod, _ => do
      let dom ← write avoid dom false
      let (name, cod) ← under avoid name (write avoid cod false)
      pure ("\x7b" ++ erasureMark erased ++ name ++ " : " ++ dom ++ "\x7d " ++ cod)
  | .lam erased name dom body, _ => do
      let dom ← (if dom.isHole then pure "" else (" : " ++ ·) <$> write avoid dom false)
      let (name, body) ← under avoid name (write avoid body false)
      pure ("[" ++ erasureMark erased ++ name ++ dom ++ "] " ++ body)
  | .app erased fn arg, inSpine => do
      let fn ← write avoid fn true
      let arg ← write avoid arg false
      let spine := fn ++ " " ++ erasureMark erased ++ arg
      pure (if inSpine then spine else "(" ++ spine ++ ")")
  | .sigma erased name fst snd, _ => do
      let fst ← write avoid fst false
      let (name, snd) ← under avoid name (write avoid snd false)
      pure ("<" ++ erasureMark erased ++ name ++ " : " ++ fst ++ "> " ++ snd)
  | .pair erased type fst snd, _ => do
      let type ← write avoid type false
      let fst ← write avoid fst false
      let snd ← write avoid snd false
      pure ("pair" ++ erasureMark erased ++ " " ++ type ++ " " ++ fst ++ " " ++ snd)
  | .split erased scrutinee name motive fstName sndName body, _ => do
      let scrutinee ← write avoid scrutinee false
      let (name, motive) ← under avoid name (write avoid motive false)
      let fstName ← bindName avoid fstName
      let sndName ← bindName avoid sndName
      let body ← write avoid body false
      unbind 2
      pure ("split" ++ erasureMark erased ++ " " ++ scrutinee ++ " as " ++ name ++ " return " ++
        motive ++ " with " ++ fstName ++ " " ++ sndName ++ " => " ++ body)
  | .data name type ctrs, _ => do
      let type ← write avoid type false
      let (name, ctrs) ← under avoid name (writeEntries avoid " : " ctrs)
      pure ("data " ++ name ++ " : " ++ type ++ " " ++ blockText ctrs)
  | .ctr name type, _ => do
      let type ← write avoid type false
      pure ("." ++ name ++ " " ++ type)
  | .caseOf type value name motive branches, _ => do
      let value ← write avoid value false
      let type ← write avoid type false
      let (name, motive) ← under avoid name (write avoid motive false)
      let branches ← writeEntries avoid " => " branches
      pure ("case " ++ value ++ " of " ++ type ++ " as " ++ name ++ " return " ++ motive ++ " " ++
        blockText branches)
  | .dup name value body, _ => do
      let value ← write avoid value false
      let (name, body) ← under avoid name (write avoid body false)
      pure ("dup " ++ name ++ " = " ++ value ++ " in " ++ body)
  | .box value, _ => do
      let value ← write avoid value false
      pure ("box " ++ value)
  | .boxType type, _ => do
      let type ← write avoid type false
      pure ("Box " ++ type)

/-- Write entries: label, separator, term. -/
def writeEntries (avoid : List String) (separator : String) : Entries → Printing (List String)
  | .nil => pure []
  | .cons label term rest => do
      let term ← write avoid term false
      let rest ← writeEntries avoid separator rest
      pure ((label ++ separator ++ term) :: rest)

end

/-- Bind names in order. -/
def bindNames (avoid : List String) : List String → Printing Unit
  | [] => pure ()
  | name :: names => do
      let _ ← bindName avoid name
      bindNames avoid names

/-- Write a term below the binders of a context. -/
def writeIn (t : Term) (ctx : Context) : Printing String := do
  bindNames t.refs ctx.names
  write t.refs t false

/-- Write one line for each binding, the outermost of which comes first. -/
def writeLines : List Binding → Printing (List String)
  | [] => pure []
  | binding :: inner => do
      let type ← write [] binding.type false
      let name ← bindName [] binding.name
      let lines ← writeLines inner
      pure ((name ++ " : " ++ type) :: lines)

/-- Write the binders of a context with their types. -/
def writeContext (ctx : Context) : Printing String := do
  let lines ← writeLines ctx.bindings.reverse
  pure ("\n".intercalate lines)

/-- The actions for a part in the scope of one more binder. -/
def Action.under (name : String) (inner : List Action) : List Action :=
  .bind name :: (inner ++ [.unbind 1])

end Printer

open Printer

mutual

/-- What a printer binds and unbinds when it writes a term. -/
def Term.actions : Term → List Action
  | .hole | .var _ | .univ | .ref _ => []
  | .pi _ name dom cod => dom.actions ++ Action.under name cod.actions
  | .lam _ name dom body => dom.actions ++ Action.under name body.actions
  | .app _ fn arg => fn.actions ++ arg.actions
  | .sigma _ name fst snd => fst.actions ++ Action.under name snd.actions
  | .pair _ type fst snd => type.actions ++ (fst.actions ++ snd.actions)
  | .split _ scrutinee name motive fstName sndName body =>
      scrutinee.actions ++ (Action.under name motive.actions ++
        .bind fstName :: .bind sndName :: (body.actions ++ [.unbind 2]))
  | .data name type ctrs => type.actions ++ Action.under name ctrs.actions
  | .ctr _ type => type.actions
  | .caseOf type value name motive branches =>
      value.actions ++ (type.actions ++ (Action.under name motive.actions ++ branches.actions))
  | .dup name value body => value.actions ++ Action.under name body.actions
  | .box value => value.actions
  | .boxType type => type.actions

/-- What a printer binds and unbinds when it writes entries. -/
def Entries.actions : Entries → List Action
  | .nil => []
  | .cons _ term rest => term.actions ++ rest.actions

end

/-- What a printer binds and unbinds when it writes the line of a binding. -/
def Binding.actions (binding : Binding) : List Action :=
  binding.type.actions ++ [.bind binding.name]

/-- What a printer binds and unbinds when it writes a context. -/
def Context.actions (ctx : Context) : List Action :=
  ctx.bindings.reverse.flatMap Binding.actions

namespace Printer

/-! ## What printers do -/

/-- In this scope the printer does these actions and writes `a`, and then it has the scope `final`. -/
structure Performs {α : Type} (avoid : List String) (printer : Printing α) (scope : List String)
    (actions : List Action) (a : α) (final : List String) : Prop where
  result : ∀ past, printer.run ⟨scope, past⟩ = some (a, ⟨final, past ++ actions⟩)
  run : Run avoid scope actions final

namespace Performs

variable {α β : Type} {avoid scope middle final : List String} {printer : Printing α}
  {next : α → Printing β} {actions more : List Action} {a : α} {b : β}

/-- A printer that writes nothing does no actions. -/
theorem pure (a : α) : Performs avoid (Pure.pure a) scope [] a scope where
  result past := by
    rw [List.append_nil]
    rfl
  run := .nil scope

/-- Printers one after the other do the actions of both. -/
theorem bind (first : Performs avoid printer scope actions a middle)
    (second : Performs avoid (next a) middle more b final) :
    Performs avoid (printer >>= next) scope (actions ++ more) b final where
  result past := by
    rw [StateT.run_bind, first.result, ← List.append_assoc]
    exact second.result (past ++ actions)
  run := first.run.append second.run

/-- A printer whose result is put together from that of another does what that does. -/
theorem map (f : α → β) (first : Performs avoid printer scope actions a final) :
    Performs avoid (printer >>= fun a => Pure.pure (f a)) scope actions (f a) final := by
  have both : Performs avoid (printer >>= fun a => Pure.pure (f a)) scope (actions ++ []) (f a) final :=
    first.bind (.pure (f a))
  rwa [List.append_nil] at both

end Performs

section Parts

variable {α : Type} {avoid scope : List String}

/-- Binding a name puts a fresh one in scope. -/
theorem performs_bindName (name : String) :
    Performs avoid (bindName avoid name) scope [.bind name] (freshName avoid scope name)
      (freshName avoid scope name :: scope) :=
  ⟨fun _ => rfl, (Step.bind (finds_freshName avoid scope name)).run⟩

/-- Unbinding drops the innermost names. -/
theorem performs_unbind (names : List String) :
    Performs avoid (unbind names.length) (names ++ scope) [.unbind names.length] () scope := by
  have le : names.length ≤ (names ++ scope).length := by
    rw [List.length_append]
    omega
  have dropped : (names ++ scope).drop names.length = scope := List.drop_left
  constructor
  · intro past
    change (if _ then _ else _ : Printing Unit).run _ = _
    rw [if_pos le, dropped]
    rfl
  · have step : Step avoid (names ++ scope) (.unbind names.length) _ := .unbind le
    rw [dropped] at step
    exact step.run

/-- A part below a binder is written between binding its name and unbinding it. -/
theorem performs_under (name : String) {inner : Printing α} {actions : List Action} {a : α}
    (part : Performs avoid inner (freshName avoid scope name :: scope) actions a
      (freshName avoid scope name :: scope)) :
    Performs avoid (under avoid name inner) scope (Action.under name actions)
      (freshName avoid scope name, a) scope :=
  (performs_bindName name).bind (part.bind ((performs_unbind [_]).map fun _ => (_, a)))

/-- Writing a variable leaves the scope as it is. -/
theorem performs_writeVar {index : Int} (nonneg : 0 ≤ index) (inSpine : Bool) :
    Performs avoid (writeVar index) scope [] ((Term.var index).text avoid scope inSpine) scope := by
  refine ⟨fun past => ?_, .nil scope⟩
  rw [Term.text.eq_def, List.append_nil]
  dsimp only
  change (if _ then _ else _ : Printing String).run _ = _
  rw [if_pos nonneg, if_pos nonneg]
  cases scope[index.toNat]? <;> rfl

end Parts

/-! ## Terms -/

mutual

/-- A printer writes the text of a term, and has the scope that it had at first. -/
theorem performs_write (avoid : List String) (t : Term) {depth : Nat}
    (nonneg : t.allVars (fun _ i => 0 ≤ i) depth = true) (scope : List String) (inSpine : Bool) :
    Performs avoid (write avoid t inSpine) scope t.actions (t.text avoid scope inSpine) scope := by
  cases t with
  | var index => exact performs_writeVar (by simpa [Term.allVars] using nonneg) inSpine
  | hole =>
      rw [Term.text.eq_def]
      exact .pure "?"
  | univ =>
      rw [Term.text.eq_def]
      exact .pure "Type"
  | ref name =>
      rw [Term.text.eq_def]
      exact .pure name
  | pi erased name dom cod =>
      simp only [Term.allVars, Bool.and_eq_true] at nonneg
      rw [Term.text.eq_def, write.eq_def]
      exact (performs_write avoid dom nonneg.1 scope false).bind
        ((performs_under name (performs_write avoid cod nonneg.2 _ false)).map _)
  | lam erased name dom body =>
      simp only [Term.allVars, Bool.and_eq_true] at nonneg
      rw [Term.text.eq_def, write.eq_def]
      have domain : Performs avoid
          (if dom.isHole then pure "" else (" : " ++ ·) <$> write avoid dom false) scope dom.actions
          (if dom.isHole then "" else " : " ++ dom.text avoid scope false) scope := by
        cases bare : dom.isHole with
        | true =>
            obtain rfl := (Term.isHole_iff dom).1 bare
            exact .pure ""
        | false => exact (performs_write avoid dom nonneg.1 scope false).map _
      exact domain.bind ((performs_under name (performs_write avoid body nonneg.2 _ false)).map _)
  | app erased fn arg =>
      simp only [Term.allVars, Bool.and_eq_true] at nonneg
      rw [Term.text.eq_def, write.eq_def]
      exact (performs_write avoid fn nonneg.1 scope true).bind
        ((performs_write avoid arg nonneg.2 scope false).map _)
  | sigma erased name fst snd =>
      simp only [Term.allVars, Bool.and_eq_true] at nonneg
      rw [Term.text.eq_def, write.eq_def]
      exact (performs_write avoid fst nonneg.1 scope false).bind
        ((performs_under name (performs_write avoid snd nonneg.2 _ false)).map _)
  | pair erased type fst snd =>
      simp only [Term.allVars, Bool.and_eq_true] at nonneg
      rw [Term.text.eq_def, write.eq_def]
      exact (performs_write avoid type nonneg.1.1 scope false).bind
        ((performs_write avoid fst nonneg.1.2 scope false).bind
          ((performs_write avoid snd nonneg.2 scope false).map _))
  | split erased scrutinee name motive fstName sndName body =>
      simp only [Term.allVars, Bool.and_eq_true] at nonneg
      rw [Term.text.eq_def, write.eq_def]
      refine (performs_write avoid scrutinee nonneg.1.1 scope false).bind
        ((performs_under name (performs_write avoid motive nonneg.1.2 _ false)).bind ?_)
      exact (performs_bindName fstName).bind ((performs_bindName sndName).bind
        ((performs_write avoid body nonneg.2 _ false).bind ((performs_unbind [_, _]).map _)))
  | data name type ctrs =>
      simp only [Term.allVars, Bool.and_eq_true] at nonneg
      rw [Term.text.eq_def, write.eq_def]
      exact (performs_write avoid type nonneg.1 scope false).bind
        ((performs_under name (performs_writeEntries avoid " : " ctrs nonneg.2 _)).map _)
  | ctr name type =>
      rw [Term.text.eq_def, write.eq_def]
      exact (performs_write avoid type nonneg scope false).map _
  | caseOf type value name motive branches =>
      simp only [Term.allVars, Bool.and_eq_true] at nonneg
      rw [Term.text.eq_def, write.eq_def]
      refine (performs_write avoid value nonneg.1.1.2 scope false).bind
        ((performs_write avoid type nonneg.1.1.1 scope false).bind ?_)
      exact (performs_under name (performs_write avoid motive nonneg.1.2 _ false)).bind
        ((performs_writeEntries avoid " => " branches nonneg.2 scope).map _)
  | dup name value body =>
      simp only [Term.allVars, Bool.and_eq_true] at nonneg
      rw [Term.text.eq_def, write.eq_def]
      exact (performs_write avoid value nonneg.1 scope false).bind
        ((performs_under name (performs_write avoid body nonneg.2 _ false)).map _)
  | box value =>
      rw [Term.text.eq_def, write.eq_def]
      exact (performs_write avoid value nonneg scope false).map _
  | boxType type =>
      rw [Term.text.eq_def, write.eq_def]
      exact (performs_write avoid type nonneg scope false).map _

/-- Entries are written one by one, and the scope is as before. -/
theorem performs_writeEntries (avoid : List String) (separator : String) (entries : Entries)
    {depth : Nat} (nonneg : entries.allVars (fun _ i => 0 ≤ i) depth = true) (scope : List String) :
    Performs avoid (writeEntries avoid separator entries) scope entries.actions
      (entries.texts avoid separator scope) scope := by
  cases entries with
  | nil => exact .pure []
  | cons label term rest =>
      simp only [Entries.allVars, Bool.and_eq_true] at nonneg
      rw [Entries.texts, writeEntries]
      exact (performs_write avoid term nonneg.1 scope false).bind
        ((performs_writeEntries avoid separator rest nonneg.2 scope).map _)

end

/-! ## Avoiding names in vain -/

mutual

/-- Where avoiding some names changes no scope, it does not change the text of a term. -/
theorem text_of_runsAlike {names : List String} (t : Term) {depth : Nat}
    (nonneg : t.allVars (fun _ i => 0 ≤ i) depth = true) {scope : List String} (inSpine : Bool)
    (alike : RunsAlike names scope t.actions) :
    t.text names scope inSpine = t.text [] scope inSpine := by
  -- The actions of a term are cut where the printer turns from one part to the next. What it does with
  -- a part leads back to the scope, so the rest of the actions is compared from there.
  rw [Term.text.eq_def]
  conv_rhs => rw [Term.text.eq_def]
  cases t with
  | hole | var | univ | ref => rfl
  | pi erased name dom cod =>
      simp only [Term.allVars, Bool.and_eq_true] at nonneg
      have inner := alike.right (performs_write [] dom nonneg.1 scope false).run
      dsimp only
      rw [text_of_runsAlike dom nonneg.1 false alike.left, inner.freshName_eq,
        text_of_runsAlike cod nonneg.2 false inner.of_bind.left]
  | lam erased name dom body =>
      simp only [Term.allVars, Bool.and_eq_true] at nonneg
      have inner := alike.right (performs_write [] dom nonneg.1 scope false).run
      dsimp only
      rw [text_of_runsAlike dom nonneg.1 false alike.left, inner.freshName_eq,
        text_of_runsAlike body nonneg.2 false inner.of_bind.left]
  | app erased fn arg =>
      simp only [Term.allVars, Bool.and_eq_true] at nonneg
      have second := alike.right (performs_write [] fn nonneg.1 scope true).run
      dsimp only
      rw [text_of_runsAlike fn nonneg.1 true alike.left, text_of_runsAlike arg nonneg.2 false second]
  | sigma erased name fst snd =>
      simp only [Term.allVars, Bool.and_eq_true] at nonneg
      have inner := alike.right (performs_write [] fst nonneg.1 scope false).run
      dsimp only
      rw [text_of_runsAlike fst nonneg.1 false alike.left, inner.freshName_eq,
        text_of_runsAlike snd nonneg.2 false inner.of_bind.left]
  | pair erased type fst snd =>
      simp only [Term.allVars, Bool.and_eq_true] at nonneg
      have second := alike.right (performs_write [] type nonneg.1.1 scope false).run
      have third := second.right (performs_write [] fst nonneg.1.2 scope false).run
      dsimp only
      rw [text_of_runsAlike type nonneg.1.1 false alike.left,
        text_of_runsAlike fst nonneg.1.2 false second.left, text_of_runsAlike snd nonneg.2 false third]
  | split erased scrutinee name motive fstName sndName body =>
      simp only [Term.allVars, Bool.and_eq_true] at nonneg
      have inner := alike.right (performs_write [] scrutinee nonneg.1.1 scope false).run
      have components := inner.right
        (performs_under name (performs_write [] motive nonneg.1.2 _ false)).run
      dsimp only
      rw [text_of_runsAlike scrutinee nonneg.1.1 false alike.left, inner.left.freshName_eq,
        text_of_runsAlike motive nonneg.1.2 false inner.left.of_bind.left, components.freshName_eq,
        components.of_bind.freshName_eq,
        text_of_runsAlike body nonneg.2 false components.of_bind.of_bind.left]
  | data name type ctrs =>
      simp only [Term.allVars, Bool.and_eq_true] at nonneg
      have inner := alike.right (performs_write [] type nonneg.1 scope false).run
      dsimp only
      rw [text_of_runsAlike type nonneg.1 false alike.left, inner.freshName_eq,
        texts_of_runsAlike " : " ctrs nonneg.2 inner.of_bind.left]
  | ctr name type =>
      dsimp only
      rw [text_of_runsAlike type nonneg false alike]
  | caseOf type value name motive branches =>
      simp only [Term.allVars, Bool.and_eq_true] at nonneg
      have second := alike.right (performs_write [] value nonneg.1.1.2 scope false).run
      have inner := second.right (performs_write [] type nonneg.1.1.1 scope false).run
      have last := inner.right
        (performs_under name (performs_write [] motive nonneg.1.2 _ false)).run
      dsimp only
      rw [text_of_runsAlike value nonneg.1.1.2 false alike.left,
        text_of_runsAlike type nonneg.1.1.1 false second.left, inner.left.freshName_eq,
        text_of_runsAlike motive nonneg.1.2 false inner.left.of_bind.left,
        texts_of_runsAlike " => " branches nonneg.2 last]
  | dup name value body =>
      simp only [Term.allVars, Bool.and_eq_true] at nonneg
      have inner := alike.right (performs_write [] value nonneg.1 scope false).run
      dsimp only
      rw [text_of_runsAlike value nonneg.1 false alike.left, inner.freshName_eq,
        text_of_runsAlike body nonneg.2 false inner.of_bind.left]
  | box value =>
      dsimp only
      rw [text_of_runsAlike value nonneg false alike]
  | boxType type =>
      dsimp only
      rw [text_of_runsAlike type nonneg false alike]

/-- Entries are written alike if the scopes on the way are. -/
theorem texts_of_runsAlike {names : List String} (separator : String) (entries : Entries)
    {depth : Nat} (nonneg : entries.allVars (fun _ i => 0 ≤ i) depth = true) {scope : List String}
    (alike : RunsAlike names scope entries.actions) :
    entries.texts names separator scope = entries.texts [] separator scope := by
  cases entries with
  | nil => rfl
  | cons label term rest =>
      simp only [Entries.allVars, Bool.and_eq_true] at nonneg
      have second := alike.right (performs_write [] term nonneg.1 scope false).run
      rw [Entries.texts, Entries.texts, text_of_runsAlike term nonneg.1 false alike.left,
        texts_of_runsAlike separator rest nonneg.2 second]

end

/-! ## Contexts -/

/-- Binding two lists of names is binding one after the other. -/
theorem bindNames_append (avoid names more : List String) :
    bindNames avoid (names ++ more) = bindNames avoid names >>= fun _ => bindNames avoid more := by
  induction names with
  | nil => rfl
  | cons name names ih => simp only [List.cons_append, bindNames, ih, bind_assoc]

/-- Binding the names of a context gives the scope of the context. -/
theorem performs_bindNames (avoid : List String) (bindings : List Binding) :
    Performs avoid (bindNames avoid (bindings.map Binding.name).reverse) []
      ((bindings.map Binding.name).reverse.map .bind) () (Context.scopeOf avoid bindings) := by
  induction bindings with
  | nil => exact .pure ()
  | cons binding outer ih =>
      rw [List.map_cons, List.reverse_cons, bindNames_append, List.map_append]
      exact ih.bind ((performs_bindName binding.name).map fun _ => ())

/-- Writing two lists of bindings is writing one after the other. -/
theorem writeLines_append (bindings more : List Binding) :
    writeLines (bindings ++ more) = writeLines bindings >>= fun first =>
      writeLines more >>= fun second => pure (first ++ second) := by
  induction bindings with
  | nil => simp [writeLines]
  | cons binding bindings ih => simp [writeLines, ih]

/-- Writing the bindings of a context gives its lines, and its scope. -/
theorem performs_writeLines {bindings : List Binding}
    (nonneg : ∀ binding ∈ bindings, binding.type.nonneg = true) :
    Performs [] (writeLines bindings.reverse) [] (bindings.reverse.flatMap Binding.actions)
      (Context.linesOf bindings).reverse (Context.scopeOf [] bindings) := by
  induction bindings with
  | nil => exact .pure []
  | cons binding outer ih =>
      obtain ⟨here, there⟩ := List.forall_mem_cons.1 nonneg
      rw [List.reverse_cons, writeLines_append, List.flatMap_append, Context.linesOf,
        List.reverse_cons]
      refine (ih there).bind (.map _ ?_)
      rw [writeLines, List.flatMap_singleton]
      exact (performs_write [] binding.type here _ false).bind
        ((performs_bindName binding.name).map _)

/-! ## Texts -/

/-- A term that is printed has no negative index, and is written in the scope of its context. -/
theorem printIn?_eq_some {t : Term} {ctx : Context} {text : String}
    (printed : t.printIn? ctx = some text) :
    t.nonneg = true ∧ text = t.text t.refs (Context.scopeOf t.refs ctx.bindings) false := by
  unfold Term.printIn? at printed
  split at printed
  · cases printed
  · rename_i written
    exact ⟨by simp_all, (Option.some.inj printed).symm⟩

/-- A term that is printed is written in place. -/
theorem performs_of_print? {t : Term} {text : String} (printed : t.print? = some text) :
    Performs t.refs (write t.refs t false) [] t.actions text [] := by
  -- The text of a term by itself is its text in the empty context.
  have inEmpty : t.printIn? .empty = some text := printed
  obtain ⟨nonneg, rfl⟩ := printIn?_eq_some inEmpty
  exact performs_write t.refs t nonneg [] false

/-- A term that is printed in a context is written in place, below the names of the context. -/
theorem performs_of_printIn? {t : Term} {ctx : Context} {text : String}
    (printed : t.printIn? ctx = some text) :
    Performs t.refs (writeIn t ctx) [] (ctx.names.map .bind ++ t.actions) text
      (Context.scopeOf t.refs ctx.bindings) := by
  obtain ⟨nonneg, rfl⟩ := printIn?_eq_some printed
  exact (performs_bindNames t.refs ctx.bindings).bind (performs_write t.refs t nonneg _ false)

section Lines

variable {ctx : Context} {text : String} {inner outer : List Binding} {binding : Binding}

/-- The types in a context that is printed have no negative index. -/
theorem nonneg_of_context_print? (printed : ctx.print? = some text) :
    ∀ binding ∈ ctx.bindings, binding.type.nonneg = true := by
  unfold Context.print? at printed
  split at printed
  · rename_i nonneg
    exact List.all_eq_true.1 nonneg
  · cases printed

/-- A context that is printed is written in place. -/
theorem performs_of_context_print? (printed : ctx.print? = some text) :
    Performs [] (writeContext ctx) [] ctx.actions text (Context.scopeOf [] ctx.bindings) := by
  have nonneg := nonneg_of_context_print? printed
  rw [Context.print?, if_pos (List.all_eq_true.2 nonneg)] at printed
  obtain rfl := Option.some.inj printed
  exact (performs_writeLines nonneg).map _

/-- While the text of a context is written, the type of a binding is written with the outer ones in
scope. -/
theorem type_actions_in_context (printed : ctx.print? = some text)
    (split : ctx.bindings = inner ++ binding :: outer) :
    ∃ before after, ctx.actions = before ++ binding.type.actions ++ after ∧
      Run [] [] before (Context.scopeOf [] outer) := by
  have nonneg := nonneg_of_context_print? printed
  rw [split, List.forall_mem_append, List.forall_mem_cons] at nonneg
  refine ⟨outer.reverse.flatMap Binding.actions,
    .bind binding.name :: inner.reverse.flatMap Binding.actions, ?_,
    (performs_writeLines nonneg.2.2).run⟩
  simp [Context.actions, split, Binding.actions]

/-- While the type of a binding is written for the text of a context, variables are kept apart from some
names exactly if a printer that avoids these has the same scopes, in the outer bindings and in the type.
-/
theorem keepsApart_type_iff (printed : ctx.print? = some text)
    (split : ctx.bindings = inner ++ binding :: outer) (names : List String) :
    KeepsApart [] names (Context.scopeOf [] outer) binding.type.actions ↔
      Context.scopeOf names outer = Context.scopeOf [] outer ∧
      RunsAlike names (Context.scopeOf [] outer) binding.type.actions := by
  have nonneg := nonneg_of_context_print? printed
  rw [split, List.forall_mem_append, List.forall_mem_cons] at nonneg
  have written := performs_write [] binding.type nonneg.2.1 (Context.scopeOf [] outer) false
  rw [keepsApart_iff_runsAlike written.run (Context.fresh_scopeOf [] outer), Context.scopeOf_eq_iff]

/-- A type whose references are kept apart from the variables is written as it is by itself, in the
context of the outer bindings. -/
theorem text_of_keepsApart {line : String}
    (apart : Context.scopeOf binding.type.refs outer = Context.scopeOf [] outer ∧
      RunsAlike binding.type.refs (Context.scopeOf [] outer) binding.type.actions)
    (written : binding.type.printIn? ⟨outer⟩ = some line) :
    binding.type.text [] (Context.scopeOf [] outer) false = line := by
  obtain ⟨nonneg, rfl⟩ := printIn?_eq_some written
  rw [apart.1, text_of_runsAlike binding.type nonneg false apart.2]

end Lines

/-- The search for the name of a binder comes to an end. Whatever a printer binds and unbinds, at each
moment the names in scope are different names and none of them is avoided, so that different variables
are written differently, and none of those in scope is written like a name that is avoided. That is how
the text of a term, that of a term in a context and that of a context are written. For the first two the
references of the term are avoided. For the text of a context nothing is avoided: while the type of a
binding is written, variables are kept apart from its references exactly if the scopes are those of a
printer that avoids them, and then the type is written as it is by itself. -/
theorem scope_invariant (avoid : List String) (actions : List Action) (t : Term) (ctx : Context) :
    (∀ scope name fresh, Finds avoid scope name fresh ↔ fresh = freshName avoid scope name) ∧
    (∀ final, Run avoid [] actions final → KeepsApart avoid avoid [] actions) ∧
    (∀ text, t.print? = some text →
      Performs t.refs (write t.refs t false) [] t.actions text [] ∧
      KeepsApart t.refs t.refs [] t.actions) ∧
    (∀ text, t.printIn? ctx = some text →
      Performs t.refs (writeIn t ctx) [] (ctx.names.map .bind ++ t.actions) text
        (Context.scopeOf t.refs ctx.bindings) ∧
      KeepsApart t.refs t.refs [] (ctx.names.map .bind ++ t.actions)) ∧
    ∀ text, ctx.print? = some text →
      Performs [] (writeContext ctx) [] ctx.actions text (Context.scopeOf [] ctx.bindings) ∧
      KeepsApart [] [] [] ctx.actions ∧
      ∀ inner binding outer, ctx.bindings = inner ++ binding :: outer →
        let refs := binding.type.refs
        let scope := Context.scopeOf [] outer
        (∃ before after, ctx.actions = before ++ binding.type.actions ++ after ∧
          Run [] [] before scope) ∧
        (KeepsApart [] refs scope binding.type.actions ↔
          Context.scopeOf refs outer = scope ∧ RunsAlike refs scope binding.type.actions) ∧
        (KeepsApart [] refs scope binding.type.actions → ∀ line,
          binding.type.printIn? ⟨outer⟩ = some line → binding.type.text [] scope false = line) := by
  refine ⟨fun scope name fresh => finds_iff, fun final run => run.keepsApart (.nil avoid),
    fun text printed => ?_, fun text printed => ?_, fun text printed => ?_⟩
  · have performed := performs_of_print? printed
    exact ⟨performed, performed.run.keepsApart (.nil t.refs)⟩
  · have performed := performs_of_printIn? printed
    exact ⟨performed, performed.run.keepsApart (.nil t.refs)⟩
  · have performed := performs_of_context_print? printed
    refine ⟨performed, performed.run.keepsApart (.nil []), fun inner binding outer split => ?_⟩
    have apart_iff := keepsApart_type_iff printed split binding.type.refs
    refine ⟨type_actions_in_context printed split, apart_iff, fun apart line written => ?_⟩
    exact text_of_keepsApart (apart_iff.1 apart) written

/-- The outer binder has no name and the letter for it is a reference, as is the letter with the depth,
so it gets a prime. The inner binder has that name already and is numbered. -/
theorem scope_invariant_clashes :
    let t : Term := .lam false "" .hole (.lam false "a0'" .hole
      (.app false (.app false (.app false (.var 1) (.var 0)) (.ref "a")) (.ref "a0")))
    t.print? = some "[a0'] [a0'1] (a0' a0'1 a a0)" ∧
      t.actions = [.bind "", .bind "a0'", .unbind 1, .unbind 1] ∧
      Performs t.refs (write t.refs t false) [] t.actions "[a0'] [a0'1] (a0' a0'1 a a0)" [] ∧
      KeepsApart t.refs t.refs [] t.actions := by
  intro t
  have printed : t.print? = some "[a0'] [a0'1] (a0' a0'1 a a0)" := by decide +kernel
  obtain ⟨-, -, terms, -⟩ := scope_invariant t.refs t.actions t .empty
  exact ⟨printed, rfl, terms _ printed⟩

/-- In the text of a context the references `x` and `y` look like a variable of the context and one
that is bound in a type: the text with these variables is the same. By itself the type is written with
another name for the bound variable. -/
theorem context_confuses_references :
    let outer : List Binding := [⟨"x", .univ⟩]
    let type (body : Term) : Term := .lam false "y" .univ body
    let ctx (body : Term) : Context := ⟨⟨"z", type body⟩ :: outer⟩
    let refs : Term := .app false (.ref "x") (.ref "y")
    let vars : Term := .app false (.var 1) (.var 0)
    (ctx refs).print? = some "x : Type\nz : [y : Type] (x y)" ∧
      (ctx vars).print? = (ctx refs).print? ∧
      (type refs).printIn? ⟨outer⟩ = some "[y1 : Type] (x y)" ∧
      ¬ KeepsApart [] (type refs).refs (Context.scopeOf [] outer) (type refs).actions := by
  intro outer type ctx refs vars
  refine ⟨by decide +kernel, by decide +kernel, by decide +kernel, fun apart => ?_⟩
  have scope : Context.scopeOf [] outer = ["x"] := by decide +kernel
  obtain ⟨next, run, separates⟩ := apart [] List.nil_prefix
  obtain rfl := run.unique (.nil _)
  rw [scope] at separates
  exact separates.fresh.apart "x" List.mem_cons_self List.mem_cons_self

end Printer

end BoxCalculus
