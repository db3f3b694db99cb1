import BoxCalculus.Proofs.Stuck
import BoxCalculus.Proofs.Redexes

/-!
# Translations of terms

A translation maps terms to terms of the same form. What it does to a term may depend on the number of
binders that the term stands below, and it may change variables, the names of binders and erasure marks,
but it commutes with shifting and with substitution, and it keeps the meaning of references. Dropping
all names is one, and making room for new binders is another.

The rules cannot tell a term from its translation (`Translation.contract?`), so reducing the translation
takes the same steps and gives the translation of the result (`Translation.reduce`). The case analyses
that are stuck in it are the translated ones, so normalizing fails in the same way
(`Translation.normalize`).
-/

namespace BoxCalculus

/-- Searches that find related things, or nothing, in each place. -/
theorem findSome?_rel {R : β → γ → Prop} {f : α → Option β} {g : α → Option γ} : ∀ {as : List α},
    (∀ a ∈ as, Option.Rel R (f a) (g a)) → Option.Rel R (as.findSome? f) (as.findSome? g)
  | [], _ => .none
  | a :: as, each => by
      rw [List.forall_mem_cons] at each
      rw [findSome?_cons_or, findSome?_cons_or]
      have rest := findSome?_rel each.2
      obtain ⟨here, -⟩ := each
      generalize f a = found, g a = found' at here
      cases here with
      | none => exact rest
      | some related => exact .some related

/-- A map on terms that respects their forms, shifting, substitution and definitions. `term n` is what
it does to a term below `n` binders. -/
structure Translation (ar : Arith) (env env' : Env) where
  term : Nat → Term → Term
  index : Nat → Int → Int
  mark : Bool → Bool
  rename : String → String
  hole (n) : term n .hole = .hole
  var (n i) : term n (.var i) = .var (index n i)
  univ (n) : term n .univ = .univ
  ref (n name) : term n (.ref name) = .ref name
  pi (n erased name dom cod) : term n (.pi erased name dom cod) =
    .pi (mark erased) (rename name) (term n dom) (term (n + 1) cod)
  lam (n erased name dom body) : term n (.lam erased name dom body) =
    .lam (mark erased) (rename name) (term n dom) (term (n + 1) body)
  app (n erased fn arg) : term n (.app erased fn arg) = .app (mark erased) (term n fn) (term n arg)
  sigma (n erased name fst snd) : term n (.sigma erased name fst snd) =
    .sigma (mark erased) (rename name) (term n fst) (term (n + 1) snd)
  pair (n erased type fst snd) : term n (.pair erased type fst snd) =
    .pair (mark erased) (term n type) (term n fst) (term n snd)
  split (n erased scrutinee name motive fstName sndName body) :
    term n (.split erased scrutinee name motive fstName sndName body) =
      .split (mark erased) (term n scrutinee) (rename name) (term (n + 1) motive) (rename fstName)
        (rename sndName) (term (n + 2) body)
  data (n name type ctrs) : term n (.data name type ctrs) =
    .data (rename name) (term n type) (ctrs.map (term (n + 1)))
  ctr (n name type) : term n (.ctr name type) = .ctr name (term n type)
  caseOf (n type value name motive branches) : term n (.caseOf type value name motive branches) =
    .caseOf (term n type) (term n value) (rename name) (term (n + 1) motive) (branches.map (term n))
  dup (n name value body) : term n (.dup name value body) =
    .dup (rename name) (term n value) (term (n + 1) body)
  box (n value) : term n (.box value) = .box (term n value)
  boxType (n type) : term n (.boxType type) = .boxType (term n type)
  /-- The variables of the binders that have been counted stay as they are. -/
  bound (n) (i : Nat) : i < n → index n i = i
  shift (n delta cutoff : Nat) (t) :
    term (n + delta + cutoff) (t.shift ar delta cutoff) = (term (n + cutoff) t).shift ar delta cutoff
  subst (n t value) : term n (t.subst ar value 0) = (term (n + 1) t).subst ar (term n value) 0
  /-- A definition has the same translation wherever it is unfolded. -/
  unfold (n name) : env' name = (env name).map (term n)
  equal (n t u) : (term n t).equal (term n u) = t.equal u
  closed (n t) : (term n t).closed = t.closed

namespace Translation

attribute [simp] hole var univ ref pi lam app sigma pair split data ctr caseOf dup box boxType

variable {ar : Arith} {env env' : Env} (T : Translation ar env env')

/-- The translation is a gap if the term is. -/
@[simp] theorem isHole (n : Nat) (t : Term) : (T.term n t).isHole = t.isHole := by
  cases t <;> simp [Term.isHole]

/-- Asking for the translation is asking for the term. -/
@[simp] theorem need (n : Nat) (t : Term) (m : Meter) : m.need (T.term n t) = m.need t := by
  rw [Meter.need, T.isHole, Meter.need]

/-- The parts of the translation are the translated parts. -/
theorem parts (n : Nat) (t : Term) :
    (T.term n t).parts = t.parts.map fun part => (part.1, T.term (n + part.1) part.2) := by
  cases t <;> simp [Term.parts, Function.comp_def]

/-- An argument with its mark. -/
def argument (n : Nat) (arg : Bool × Term) : Bool × Term :=
  (T.mark arg.1, T.term n arg.2)

/-- A spine is taken apart alike, with the arguments taken so far. -/
theorem spineOnto (n : Nat) (t : Term) (args : List (Bool × Term)) :
    (T.term n t).spineOnto (args.map (T.argument n)) =
      (T.term n (t.spineOnto args).1, (t.spineOnto args).2.map (T.argument n)) := by
  induction t generalizing args with
  | app erased fn arg fn_ih =>
      rw [T.app]
      exact fn_ih ((erased, arg) :: args)
  | _ => simp [Term.spineOnto]

/-- A spine is taken apart alike. -/
theorem spine (n : Nat) (t : Term) :
    (T.term n t).spine = (T.term n t.spine.1, t.spine.2.map (T.argument n)) :=
  T.spineOnto n t []

/-- A spine is translated in the head and in the arguments. -/
theorem apply (n : Nat) (head : Term) (args : List (Bool × Term)) :
    T.term n (head.apply args) = (T.term n head).apply (args.map (T.argument n)) := by
  induction args generalizing head with
  | nil => rfl
  | cons arg args ih =>
      have rest := ih (.app arg.1 head arg.2)
      rw [T.app] at rest
      exact rest

/-- The right-hand side of a rule. -/
def contractum (n : Nat) : Contractum → Contractum
  | .plain t => .plain (T.term n t)
  | .under name value body => .under (T.rename name) (T.term n value) (T.term (n + 1) body)

/-- Moving a term below a binder commutes with translation. -/
theorem shift_one (n : Nat) (t : Term) : T.term (n + 1) (t.shift ar 1 0) = (T.term n t).shift ar 1 0 :=
  T.shift n 1 0 t

/-- Moving a term below a binder, outside of one, commutes with translation. -/
theorem shift_one_one (n : Nat) (t : Term) :
    T.term (n + 2) (t.shift ar 1 1) = (T.term (n + 1) t).shift ar 1 1 :=
  T.shift n 1 1 t

/-- Moving a term below a binder, outside of two, commutes with translation. -/
theorem shift_one_two (n : Nat) (t : Term) :
    T.term (n + 3) (t.shift ar 1 2) = (T.term (n + 2) t).shift ar 1 2 :=
  T.shift n 1 2 t

/-- The rule that applies to a term applies to its translation. -/
theorem contract? (n : Nat) (t : Term) :
    (T.term n t).contract? ar env' = (t.contract? ar env).map (T.contractum n) := by
  cases t with
  | ref name =>
      simp [Term.contract?, T.unfold n name, Function.comp_def, contractum]
  | app erased fn arg =>
      cases fn <;> simp [Term.contract?, contractum, T.subst, T.shift_one]
  | split erased scrutinee name motive fstName sndName body =>
      cases scrutinee <;>
        simp [Term.contract?, contractum, T.subst, T.shift_one, T.shift_one_one, T.shift_one_two]
  | dup name value body =>
      cases value <;> simp [Term.contract?, contractum, T.subst, T.shift_one_one]
  | caseOf type value name motive branches =>
      -- A case analysis looks at the spine of its scrutinee.
      simp only [T.caseOf, Term.contract?, T.spine]
      generalize value.spine = spine
      obtain ⟨head, args⟩ := spine
      cases head with
      | ctr label type =>
          simp [Entries.find?_map, contractum, T.apply, Function.comp_def]
      | dup outer boxed inner =>
          cases args with
          | nil =>
              simp [contractum, T.shift_one, T.shift_one_one, Function.comp_def]
          | cons arg args => simp
      | _ => simp
  | _ => simp [Term.contract?]

/-- The outcome of a reduction. -/
def reduced (n : Nat) (out : Term × Meter) : Term × Meter :=
  (T.term n out.1, out.2)

section Reduction

variable {again again' : Term → Meter → Term × Meter}

/-- Entries are reduced in order, as their terms are. -/
theorem reduceWith_entries (n : Nat) (m : Meter) : ∀ {entries : Entries},
    (∀ entry ∈ entries.toList, ∀ m, (T.term n entry.2).reduceWith ar env' again' m =
      T.reduced n (entry.2.reduceWith ar env again m)) →
    (entries.map (T.term n)).reduceWith ar env' again' m =
      ((entries.reduceWith ar env again m).1.map (T.term n),
        (entries.reduceWith ar env again m).2)
  | .nil, _ => rfl
  | .cons label term rest, each => by
      simp only [Entries.toList, List.forall_mem_cons] at each
      simp only [Entries.map, Entries.reduceWith, each.1, reduced, reduceWith_entries n _ each.2]

variable (agrees : ∀ n t m, again' (T.term n t) m = T.reduced n (again t m))
include agrees

/-- Going on with a translated contractum gives the translated outcome. -/
theorem resume (n : Nat) (c : Contractum) (m : Meter) :
    (T.contractum n c).resume again' m = T.reduced n (c.resume again m) := by
  cases c with
  | plain t => exact agrees n t m
  | under name value body =>
      simp only [contractum, Contractum.resume, agrees, reduced, T.dup]

/-- Applying a rule to the translation gives the translated outcome. -/
theorem contractWith (n : Nat) (t : Term) (m : Meter) :
    (T.term n t).contractWith ar env' again' m = T.reduced n (t.contractWith ar env again m) := by
  unfold Term.contractWith
  rw [T.contract?]
  cases t.contract? ar env with
  | none => rfl
  | some c =>
      dsimp only [Option.map_some]
      obtain ⟨granted, m⟩ := m.fire
      cases granted with
      | true => exact T.resume agrees n c m
      | false => rfl

/-- Going through the form of the translation gives the translated outcome. -/
theorem reduceWith (n : Nat) (t : Term) (m : Meter) :
    (T.term n t).reduceWith ar env' again' m = T.reduced n (t.reduceWith ar env again m) := by
  induction t generalizing n m with
  | hole => simp only [T.hole, Term.reduceWith, reduced]
  | var i => simp only [T.var, Term.reduceWith, reduced]
  | univ => simp only [T.univ, Term.reduceWith, reduced]
  | ref name =>
      have here := T.contractWith agrees n (.ref name) m
      rw [T.ref] at here
      simpa only [T.ref, Term.reduceWith] using here
  | pi erased name dom cod dom_ih cod_ih =>
      simp only [T.pi, Term.reduceWith, dom_ih, cod_ih, reduced]
  | lam erased name dom body dom_ih body_ih =>
      simp only [T.lam, Term.reduceWith, dom_ih, body_ih, reduced]
  | app erased fn arg fn_ih arg_ih =>
      simp only [T.app, Term.reduceWith, T.need, fn_ih, arg_ih, reduced]
      rw [← T.app]
      exact T.contractWith agrees n _ _
  | sigma erased name fst snd fst_ih snd_ih =>
      simp only [T.sigma, Term.reduceWith, fst_ih, snd_ih, reduced]
  | pair erased type fst snd type_ih fst_ih snd_ih =>
      simp only [T.pair, Term.reduceWith, type_ih, fst_ih, snd_ih, reduced]
  | split erased scrutinee name motive fstName sndName body scrutinee_ih motive_ih body_ih =>
      simp only [T.split, Term.reduceWith, scrutinee_ih, motive_ih, body_ih, reduced]
      rw [← T.split]
      exact T.contractWith agrees n _ _
  | data name type ctrs type_ih ctrs_ih =>
      simp only [T.data, Term.reduceWith, reduced, type_ih,
        T.reduceWith_entries (n + 1) m fun entry mem m => ctrs_ih entry mem (n + 1) m]
  | ctr name type type_ih => simp only [T.ctr, Term.reduceWith, type_ih, reduced]
  | caseOf type value name motive branches type_ih value_ih motive_ih branches_ih =>
      simp only [T.caseOf, Term.reduceWith, type_ih, value_ih, motive_ih, reduced,
        T.reduceWith_entries n _ fun entry mem m => branches_ih entry mem n m]
      rw [← T.caseOf]
      exact T.contractWith agrees n _ _
  | dup name value body value_ih body_ih =>
      -- The rule for a duplication is looked up before its body is reduced.
      simp only [T.dup, Term.reduceWith, T.need, value_ih, body_ih, reduced]
      rw [← T.dup, T.contract?]
      generalize value.reduceWith ar env again (m.need value) = out
      obtain ⟨value, m⟩ := out
      dsimp only
      cases (Term.dup name value body).contract? ar env with
      | none => simp only [Option.map_none, T.dup]
      | some c =>
          simp only [Option.map_some]
          match m.fire with
          | (true, m) => exact T.resume agrees n c m
          | (false, m) => simp only [T.dup]
  | box value value_ih => simp only [T.box, Term.reduceWith, value_ih, reduced]
  | boxType type type_ih => simp only [T.boxType, Term.reduceWith, type_ih, reduced]

end Reduction

/-- Reducing the translation gives the translated outcome. -/
theorem reduceUpTo (rounds n : Nat) (t : Term) (m : Meter) :
    BoxCalculus.reduceUpTo ar env' rounds (T.term n t) m =
      T.reduced n (BoxCalculus.reduceUpTo ar env rounds t m) := by
  induction rounds generalizing n t m with
  | zero =>
      rw [BoxCalculus.reduceUpTo, T.need, BoxCalculus.reduceUpTo]
      exact T.reduceWith (fun _ _ _ => rfl) n t _
  | succ rounds ih =>
      rw [BoxCalculus.reduceUpTo, T.need, BoxCalculus.reduceUpTo]
      exact T.reduceWith ih n t _

/-- Reducing the translation of a term takes the steps that reducing the term takes, and gives the
translation of its result. -/
theorem reduce (n : Nat) (t : Term) (m : Meter) :
    BoxCalculus.reduce ar env' (T.term n t) m = T.reduced n (BoxCalculus.reduce ar env t m) :=
  T.reduceUpTo _ n t m

/-- The translation is stuck if the term is. -/
theorem isStuck (n : Nat) (t : Term) : (T.term n t).isStuck = t.isStuck := by
  cases t <;> simp [Term.isStuck, T.closed]

/-- The stuck case analysis in the translation of a term is the translated one. It may stand below more
binders than the term. -/
theorem firstStuck (n : Nat) (t : Term) :
    Option.Rel (fun stuck stuck' => ∃ inside, stuck' = T.term (n + inside) stuck) t.firstStuck
      (T.term n t).firstStuck := by
  induction t using Term.byParts generalizing n with
  | step t ih =>
      rw [Term.firstStuck_eq, Term.firstStuck_eq, T.isStuck, T.parts, List.findSome?_map]
      split
      · exact .some ⟨0, rfl⟩
      · -- The parts are searched in the same order, each below its own binders.
        refine findSome?_rel fun part mem => ?_
        have here := ih part mem (n + part.1)
        show Option.Rel _ part.2.firstStuck (T.term (n + part.1) part.2).firstStuck
        generalize part.2.firstStuck = found, (T.term (n + part.1) part.2).firstStuck = found' at here ⊢
        cases here with
        | none => exact .none
        | some found =>
            obtain ⟨inside, rfl⟩ := found
            exact .some ⟨part.1 + inside, by rw [Nat.add_assoc]⟩

/-- The translation lacks a scrutinee if the term does. -/
theorem lacksScrutinee (n : Nat) (t : Term) : (T.term n t).lacksScrutinee = t.lacksScrutinee := by
  cases t <;> simp [Term.lacksScrutinee]

/-- `Stuck n e e'` says that `e'` is the failure of normalizing the translation of a term below `n`
binders, where `e` is the failure of normalizing the term. -/
inductive Stuck (n : Nat) : Failure → Failure → Prop where
  | stopped (stop) : Stuck n (.stopped stop) (.stopped stop)
  | stuck (inside t) : Stuck n (.typing (.about .stuckReduction t .empty))
      (.typing (.about .stuckReduction (T.term (n + inside) t) .empty))

/-- Normalizing the translation of a term gives the translation of its normal form, with the same
failure if there is one. -/
theorem normalize (n : Nat) (fuel : Int) (canceled : Bool) (t : Term) :
    ((⟨ar, env', fuel⟩ : Kernel).normalize canceled (T.term n t)).1 =
        T.term n ((⟨ar, env, fuel⟩ : Kernel).normalize canceled t).1 ∧
      Option.Rel (T.Stuck n) ((⟨ar, env, fuel⟩ : Kernel).normalize canceled t).2
        ((⟨ar, env', fuel⟩ : Kernel).normalize canceled (T.term n t)).2 := by
  simp only [Kernel.normalize, T.reduce]
  generalize BoxCalculus.reduce ar env t (Meter.start fuel canceled) = out
  obtain ⟨nf, m⟩ := out
  dsimp only [reduced]
  cases m.stopped with
  | some stop => exact ⟨rfl, .some (.stopped stop)⟩
  | none =>
      have found := T.firstStuck n nf
      generalize nf.firstStuck = stuck?, (T.term n nf).firstStuck = stuck?' at found
      cases found with
      | none => exact ⟨rfl, .none⟩
      | @some stuck _ here =>
          obtain ⟨inside, rfl⟩ := here
          dsimp only
          rw [T.lacksScrutinee]
          split
          · exact ⟨rfl, .some (.stopped .gap)⟩
          · exact ⟨rfl, .some (.stuck inside stuck)⟩

end Translation

end BoxCalculus
