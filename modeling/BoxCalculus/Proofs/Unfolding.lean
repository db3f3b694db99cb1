import BoxCalculus.Book.Expansion
import BoxCalculus.Proofs.Leaves
import Mathlib.Algebra.Group.Int.Defs
import Mathlib.Algebra.Group.Nat.Defs

/-!
# Expanded terms

`Unfolds env t e` says that `e` is `t` with each reference to a definition replaced by what the
definition unfolds to, or by an identity applied to it. This is what the expansion of a term over a
book gives (`Book.unfolds_expand`).

What stands in the place of a reference has no free variables. A traversal of the variables passes it
by, as long as it counts binders that are fewer than machine words can count, so a traversal of a term
is one of what it unfolds to (`Unfolds.bindVars`).
-/

namespace BoxCalculus

/-- The index is a machine word. -/
def IsWord (i : Int) : Prop :=
  -2 ^ 63 ≤ i ∧ i < 2 ^ 63

instance (i : Int) : Decidable (IsWord i) :=
  inferInstanceAs (Decidable (_ ∧ _))

/-- A sum of machine words is a machine word. -/
theorem isWord_add (i j : Int) : IsWord (Arith.word.add i j) := by
  rw [Arith.word_add]
  exact ⟨Int.le_bmod (by decide), Int.bmod_lt (by decide)⟩

/-- Counting binders does not wrap around where words can count them. -/
theorem Arith.word_zero_add {k : Nat} (small : k < 2 ^ 63) : Arith.word.add 0 k = k := by
  rw [Arith.word_add_eq (by omega) (by omega), Int.zero_add]

namespace Term

/-- The term has no free variables, and its indices are machine words. -/
def constant (t : Term) : Bool :=
  t.allVars (fun depth i => i < depth ∧ IsWord i) 0

/-- A question that holds of the variables of a term holds also if the binders are counted from
elsewhere, provided that it does not get harder thereby. -/
theorem allVars_mono {p q : Nat → Int → Bool} {d e : Nat}
    (weaker : ∀ k i, p (d + k) i = true → q (e + k) i = true) {t : Term}
    (all : t.allVars p d = true) : t.allVars q e = true := by
  induction t using byParts generalizing d e with
  | step t ih =>
      by_cases isVar : ∃ i, t = var i
      · obtain ⟨i, rfl⟩ := isVar
        exact weaker 0 i all
      · rw [not_exists] at isVar
        rw [allVars_eq_all _ _ isVar, List.all_eq_true] at all ⊢
        refine fun part mem => ih part mem (fun k i => ?_) (all part mem)
        simpa [Nat.add_assoc] using weaker (part.1 + k) i

/-- The index is a machine word and stands below fewer than `n` binders. -/
def wordBelow (n depth : Nat) (i : Int) : Bool :=
  depth < n ∧ IsWord i

/-- The bounds of the index and of the binders around it. -/
theorem wordBelow_iff {n depth : Nat} {i : Int} :
    wordBelow n depth i = true ↔ depth < n ∧ -2 ^ 63 ≤ i ∧ i < 2 ^ 63 :=
  decide_eq_true_iff

/-- Counting the binders from elsewhere, and up to another number. -/
theorem wordBelow_mono {n m d e : Nat} {t : Term} (le : m + e ≤ n + d)
    (words : t.allVars (wordBelow m) d = true) : t.allVars (wordBelow n) e = true := by
  refine allVars_mono (fun k i word => ?_) words
  rw [wordBelow_iff] at word ⊢
  exact ⟨by omega, word.2⟩

/-- Two questions about the variables of a term can be asked at once. -/
theorem allVars_and {p q : Nat → Int → Bool} {d : Nat} {t : Term} (first : t.allVars p d = true)
    (second : t.allVars q d = true) : t.allVars (fun k i => p k i && q k i) d = true := by
  induction t using byParts generalizing d with
  | step t ih =>
      by_cases isVar : ∃ i, t = var i
      · obtain ⟨i, rfl⟩ := isVar
        exact Bool.and_eq_true_iff.2 ⟨first, second⟩
      · rw [not_exists] at isVar
        rw [allVars_eq_all _ _ isVar, List.all_eq_true] at first second ⊢
        exact fun part mem => ih part mem (first part mem) (second part mem)

/-- A constant term stays one below binders. -/
theorem constant_below {t : Term} (constant : t.constant = true) (depth : Nat) :
    t.allVars (fun depth i => i < depth ∧ IsWord i) depth = true := by
  refine allVars_mono (fun k i => ?_) constant
  simp only [decide_eq_true_eq]
  rintro ⟨below, word⟩
  exact ⟨by omega, word⟩

/-- A traversal passes a constant term by if it fixes the variables that are bound in it, as far as
binders are counted. -/
theorem bindVars_constant {f : Nat → Int → Term} {bound : Nat}
    (fixed : ∀ (k : Nat) (i : Int), i < k → k < bound → f k i = var i) {t : Term} {depth : Nat}
    (constant : t.constant = true) (shallow : t.allVars (fun k _ => k < bound) depth = true) :
    t.bindVars f depth = t := by
  refine bindVars_of_allVars (fun k i within => ?_) (allVars_and (constant_below constant depth) shallow)
  simp only [Bool.and_eq_true, decide_eq_true_eq] at within
  exact fixed k i within.1.1 within.2

/-- The indices of a constant term are words. -/
theorem leavesIn_word {t : Term} {depth : Nat}
    (all : t.allVars (fun depth i => i < depth ∧ IsWord i) depth = true) :
    LeavesIn IsWord (fun _ => True) t := by
  induction t using byParts generalizing depth with
  | step t ih =>
      by_cases isVar : ∃ i, t = var i
      · obtain ⟨i, rfl⟩ := isVar
        exact leavesIn_var (of_decide_eq_true all).2
      · rw [not_exists] at isVar
        rw [allVars_eq_all _ _ isVar, List.all_eq_true] at all
        refine .intro ?_ fun part mem => ih part mem (all part mem)
        cases t with
        | var i => exact absurd rfl (isVar i)
        | _ => trivial

end Term

/-- Putting a term in the place of a variable that stands alone gives the term, if its indices are
words. -/
theorem LeavesIn.subst_var {t : Term} (leaves : LeavesIn IsWord (fun _ => True) t) :
    (Term.var 0).subst .word t 0 = t := by
  refine leaves.bindVars_eq fun k i word => ?_
  have same : Arith.word.add i 0 = i := by
    rw [Arith.word_add_eq] <;> simp only [IsWord, Int.add_zero] at word ⊢
    · exact word.1
    · exact word.2
  split
  · rfl
  · exact congrArg Term.var same

/-- `Unfolds env t e` says that `e` is `t` with each reference to a definition replaced by what the
definition unfolds to, or by an identity applied to it. What is put in has no free variables and
is there. -/
inductive Unfolds (env : Env) : Term → Term → Prop where
  | node (t ps) :
      t.parts.length = ps.length → (∀ pair ∈ t.parts.zip ps, Unfolds env pair.1.2 pair.2) →
      (∀ name, t = .ref name → env name = none) → Unfolds env t (t.withParts ps)
  | plain (name d e) :
      env name = some d → Unfolds env d e → e.constant = true → e.isHole = false →
      Unfolds env (.ref name) e
  | annotated (name d e label type) :
      env name = some d → Unfolds env d e →
      (Term.app false (.lam false label type (.var 0)) e).constant = true →
      Unfolds env (.ref name) (.app false (.lam false label type (.var 0)) e)

namespace Unfolds

variable {env : Env} {t e : Term}

/-- A term unfolds in its parts, if it is no reference to a definition. -/
theorem of_parts (unknown : ∀ name, t = .ref name → env name = none)
    (parts : Parted (Unfolds env) t e) : Unfolds env t e := by
  obtain ⟨ps, each, rfl⟩ := parts
  obtain ⟨same, each⟩ := List.forall₂_iff_zip.1 each
  exact .node t ps same (fun pair mem => each mem) unknown

/-- Induction on the references that have been unfolded. -/
@[elab_as_elim]
theorem byParts {P : Term → Term → Prop}
    (node : ∀ t e, (∀ name, t = .ref name → env name = none) →
      Parted (fun p q => Unfolds env p q ∧ P p q) t e → P t e)
    (plain : ∀ name d e, env name = some d → Unfolds env d e → e.constant = true →
      e.isHole = false → P (.ref name) e)
    (annotated : ∀ name d e label type, env name = some d → Unfolds env d e →
      (Term.app false (.lam false label type (.var 0)) e).constant = true →
      P (.ref name) (.app false (.lam false label type (.var 0)) e))
    (h : Unfolds env t e) : P t e := by
  induction h with
  | node t ps same each unknown ih =>
      refine node t _ unknown ⟨ps, List.forall₂_iff_zip.2 ⟨same, fun {part p} mem => ?_⟩, rfl⟩
      exact ⟨each (part, p) mem, ih (part, p) mem⟩
  | plain name d e found unfolds constant there _ => exact plain name d e found unfolds constant there
  | annotated name d e label type found unfolds constant _ =>
      exact annotated name d e label type found unfolds constant

/-- A term unfolds part by part, unless it is a reference to a definition. -/
theorem parts_or_ref (h : Unfolds env t e) :
    ((∀ name, t = .ref name → env name = none) ∧ Parted (Unfolds env) t e) ∨
      ∃ name d, t = .ref name ∧ env name = some d ∧
        ((Unfolds env d e ∧ e.isHole = false) ∨
          ∃ x label type, e = .app false (.lam false label type (.var 0)) x ∧ Unfolds env d x ∧
            e.constant = true) := by
  refine byParts (fun t e unknown parts => ?_) (fun name d e found unfolds constant there => ?_)
    (fun name d x label type found unfolds constant => ?_) h
  · exact .inl ⟨unknown, parts.imp fun _ _ _ => And.left⟩
  · exact .inr ⟨name, d, rfl, found, .inl ⟨unfolds, there⟩⟩
  · exact .inr ⟨name, d, rfl, found, .inr ⟨x, label, type, rfl, unfolds, constant⟩⟩

/-- A term without references to definitions unfolds to itself. -/
theorem refl (leaves : LeavesIn (fun _ => True) (fun name => env name = none) t) :
    Unfolds env t t := by
  induction t using Term.byParts with
  | step t ih =>
      refine of_parts ?_ (.of_refl fun part mem => ih part mem (leaves.part mem))
      rintro name rfl
      exact leaves.here

/-- A traversal of the variables of a term is one of what the term unfolds to. -/
theorem bindVars {f : Nat → Int → Term} {bound : Nat} (unfolds : Unfolds env t e)
    (fixed : ∀ (k : Nat) (i : Int), i < k → k < bound → f k i = .var i)
    (placed : ∀ k i, Unfolds env (f k i) (f k i)) : ∀ depth : Nat,
    e.allVars (fun k _ => k < bound) depth = true →
    Unfolds env (t.bindVars f depth) (e.bindVars f depth) := by
  refine byParts (fun t e unknown parts => ?_) (fun name d e found unfolds constant there => ?_)
    (fun name d e label type found unfolds constant => ?_) unfolds
  all_goals intro depth shallow
  · by_cases isVar : ∃ i, t = .var i
    · obtain ⟨i, rfl⟩ := isVar
      obtain rfl := (Parted.leaf_iff rfl).1 parts
      exact placed depth i
    · rw [not_exists] at isVar
      have isVar' : ∀ i, e ≠ .var i := by
        rw [parts.eq_withParts]
        exact Term.withParts_ne_var isVar _
      rw [Term.allVars_eq_all _ _ isVar', List.all_eq_true] at shallow
      refine of_parts ?_ (parts.bindVars isVar fun part mem part' mem' binders related => ?_)
      · intro name isRef
        cases t with
        | ref => exact unknown name isRef
        | var i => exact absurd rfl (isVar i)
        | _ => cases isRef
      · rw [binders]
        exact related.2 _ (shallow part' mem')
  · rw [Term.bindVars_constant fixed constant shallow]
    exact .plain name d e found unfolds constant there
  · rw [Term.bindVars_constant fixed constant shallow]
    exact .annotated name d e label type found unfolds constant

/-- What unfolds does so after shifting, unless there are too many binders. -/
theorem shift (unfolds : Unfolds env t e)
    (shallow : e.allVars (fun k _ => k < 2 ^ 63 - 1) 0 = true) :
    Unfolds env (t.shift .word 1 1) (e.shift .word 1 1) := by
  refine unfolds.bindVars (fun k i below within => ?_) (fun k i => ?_) 0 shallow
  · have cutoff : Arith.word.add 1 k = 1 + k := Arith.word_add_eq (by omega) (by omega)
    rw [if_pos (by omega)]
  · split
    · exact refl (leavesIn_var trivial)
    · exact refl (leavesIn_var trivial)

/-- What unfolds does so after substitution, unless there are too many binders. -/
theorem subst {value : Term} (unfolds : Unfolds env t e)
    (leaves : LeavesIn (fun _ => True) (fun name => env name = none) value)
    (shallow : e.allVars (fun k _ => k < 2 ^ 63 - 1) 0 = true) :
    Unfolds env (t.subst .word value 0) (e.subst .word value 0) := by
  refine unfolds.bindVars (fun k i below within => ?_) (fun k i => ?_) 0 shallow
  · have here : Arith.word.add 0 k = 0 + k := Arith.word_add_eq (by omega) (by omega)
    dsimp only
    rw [if_neg (by omega), if_neg (by omega)]
  · dsimp only
    split
    · exact refl (leaves.shift (fun _ _ => trivial) _ _)
    · split
      · exact refl (leavesIn_var trivial)
      · exact refl (leavesIn_var trivial)

end Unfolds

section Expansion

/-- If two computations in a row succeed, then each of them does. -/
theorem ok_of_bind {ε α β : Type} {x : Except ε α} {f : α → Except ε β} {b : β}
    (ok : x >>= f = .ok b) : ∃ a, x = .ok a ∧ f a = .ok b := by
  cases x with
  | error e => cases ok
  | ok a => exact ⟨a, rfl, ok⟩

/-- Changing errors keeps results. -/
theorem mapError_eq_ok {ε ε' α : Type} {f : ε → ε'} {x : Except ε α} {a : α} :
    x.mapError f = .ok a ↔ x = .ok a := by
  cases x <;> simp [Except.mapError]

/-- A computation on each element in turn succeeds if it does on each of them. -/
theorem mapM_ok_iff {ε α β : Type} {f : α → Except ε β} {xs : List α} {ys : List β} :
    xs.mapM f = .ok ys ↔ List.Forall₂ (fun x y => f x = .ok y) xs ys := by
  induction xs generalizing ys with
  | nil => simp [pure, Except.pure, eq_comm]
  | cons x xs ih =>
      rw [List.mapM_cons, List.forall₂_cons_left_iff]
      constructor
      · intro ok
        obtain ⟨y, first, ok⟩ := ok_of_bind ok
        obtain ⟨ys, rest, ok⟩ := ok_of_bind ok
        cases ok
        exact ⟨y, ys, first, ih.1 rest, rfl⟩
      · rintro ⟨y, ys, first, rest, rfl⟩
        rw [first, ih.2 rest]
        rfl

variable {unfold : String → Option (Except DefinitionFailure Term)}

/-- Entries are expanded term by term. -/
theorem Entries.expandWith_eq : ∀ entries : Entries,
    entries.expandWith unfold = (entries.terms.mapM (Term.expandWith unfold)).map entries.withTerms
  | .nil => rfl
  | .cons label term rest => by
      rw [Entries.expandWith, Entries.terms_cons, List.mapM_cons, Entries.expandWith_eq rest]
      cases term.expandWith unfold with
      | error failure => rfl
      | ok term' => cases rest.terms.mapM (Term.expandWith unfold) <;> rfl

/-- A term other than a reference is expanded by expanding its parts in turn. -/
theorem Term.expandWith_eq {t : Term} (other : ∀ name, t ≠ .ref name) :
    t.expandWith unfold =
      ((t.parts.map Prod.snd).mapM (Term.expandWith unfold)).map t.withParts := by
  cases t with
  | ref name => exact absurd rfl (other name)
  | hole | var | univ => rfl
  | ctr name a | box a | boxType a =>
      simp only [Term.expandWith, Term.parts, List.map, List.mapM_cons, List.mapM_nil]
      cases a.expandWith unfold <;> rfl
  | pi erased name a b | lam erased name a b | app erased a b | sigma erased name a b | dup name a b =>
      simp only [Term.expandWith, Term.parts, List.map, List.mapM_cons, List.mapM_nil]
      cases a.expandWith unfold with
      | error => rfl
      | ok => cases b.expandWith unfold <;> rfl
  | pair erased a b c | split erased a name b fstName sndName c =>
      simp only [Term.expandWith, Term.parts, List.map, List.mapM_cons, List.mapM_nil]
      cases a.expandWith unfold with
      | error => rfl
      | ok =>
          cases b.expandWith unfold with
          | error => rfl
          | ok => cases c.expandWith unfold <;> rfl
  | data name a entries =>
      have terms : (data name a entries).parts.map Prod.snd = entries.terms ++ [a] := by
        simp [parts_data, Function.comp_def]
      rw [terms, List.mapM_append, Term.expandWith, Entries.expandWith_eq]
      cases expanded : entries.terms.mapM (Term.expandWith unfold) with
      | error failure => rfl
      | ok ts =>
          have count : ts.length = entries.length :=
            (mapM_ok_iff.1 expanded).length_eq.symm.trans entries.length_terms
          simp only [List.mapM_cons, List.mapM_nil]
          cases a.expandWith unfold with
          | error failure => rfl
          | ok a' =>
              show Except.ok _ = Except.ok ((data name a entries).withParts (ts ++ [a']))
              rw [withParts_data, Entries.withTerms_append _ count, List.getLastD_concat]
  | caseOf a b name c entries =>
      have terms : (caseOf a b name c entries).parts.map Prod.snd =
          a :: b :: c :: entries.terms := by
        simp [parts_caseOf, Function.comp_def]
      simp only [terms, List.mapM_cons, Term.expandWith, Entries.expandWith_eq]
      cases a.expandWith unfold with
      | error failure => rfl
      | ok a' =>
          cases b.expandWith unfold with
          | error failure => rfl
          | ok b' =>
              cases c.expandWith unfold with
              | error failure => rfl
              | ok c' => cases entries.terms.mapM (Term.expandWith unfold) <;> rfl

/-- A term other than a reference is expanded by expanding each of its parts. -/
theorem Term.expandWith_ok_iff {t e : Term} (other : ∀ name, t ≠ .ref name) :
    t.expandWith unfold = .ok e ↔ Parted (fun p q => p.expandWith unfold = .ok q) t e := by
  rw [Term.expandWith_eq other]
  constructor
  · intro ok
    cases expanded : (t.parts.map Prod.snd).mapM (Term.expandWith unfold) with
    | error failure =>
        rw [expanded] at ok
        cases ok
    | ok ps =>
        rw [expanded] at ok
        cases ok
        exact ⟨ps, List.forall₂_map_left_iff.1 (mapM_ok_iff.1 expanded), rfl⟩
  · rintro ⟨ps, each, rfl⟩
    rw [mapM_ok_iff.2 (List.forall₂_map_left_iff.2 each)]
    rfl

/-- What a reference is expanded to: the answer for its name, or itself. -/
theorem Term.expandWith_ref {name : String} {e : Term}
    (ok : (Term.ref name).expandWith unfold = .ok e) :
    unfold name = some (.ok e) ∨ (unfold name = none ∧ e = .ref name) := by
  rw [Term.expandWith] at ok
  cases answer : unfold name with
  | none =>
      rw [answer] at ok
      cases ok
      exact .inr ⟨rfl, rfl⟩
  | some outcome =>
      rw [answer] at ok
      exact .inl (congrArg some ok)

/-- A term unfolds to its expansion if references unfold to the answers for their names. -/
theorem Unfolds.of_expandWith {env : Env} {t e : Term}
    (answers : ∀ name e, unfold name = some (.ok e) → Unfolds env (.ref name) e)
    (silent : ∀ name, unfold name = none → env name = none)
    (ok : t.expandWith unfold = .ok e) : Unfolds env t e := by
  induction t using Term.byParts generalizing e with
  | step t ih =>
      by_cases isRef : ∃ name, t = .ref name
      · obtain ⟨name, rfl⟩ := isRef
        rcases Term.expandWith_ref ok with answer | ⟨none, rfl⟩
        · exact answers name e answer
        · refine .refl (.intro (silent name none) fun _ mem => ?_)
          cases mem
      · rw [not_exists] at isRef
        exact .of_parts (fun name same => absurd same (isRef name))
          (((Term.expandWith_ok_iff isRef).1 ok).imp fun part mem _ => ih part mem)

/-- A question about variables holds of an expansion if it holds of the term and of the answers. -/
theorem Term.allVars_expandWith {p : Nat → Int → Bool} {t e : Term} {depth : Nat}
    (answers : ∀ name e, unfold name = some (.ok e) → ∀ depth, e.allVars p depth = true)
    (ok : t.expandWith unfold = .ok e) (all : t.allVars p depth = true) :
    e.allVars p depth = true := by
  induction t using Term.byParts generalizing e depth with
  | step t ih =>
      by_cases isRef : ∃ name, t = .ref name
      · obtain ⟨name, rfl⟩ := isRef
        rcases Term.expandWith_ref ok with answer | ⟨-, rfl⟩
        · exact answers name e answer depth
        · rfl
      · rw [not_exists] at isRef
        have parts := (Term.expandWith_ok_iff isRef).1 ok
        by_cases isVar : ∃ i, t = .var i
        · obtain ⟨i, rfl⟩ := isVar
          cases ok
          exact all
        · rw [not_exists] at isVar
          have isVar' : ∀ i, e ≠ .var i := by
            rw [parts.eq_withParts]
            exact Term.withParts_ne_var isVar _
          rw [Term.allVars_eq_all _ _ isVar, List.all_eq_true] at all
          rw [Term.allVars_eq_all _ _ isVar', List.all_eq_true]
          have inside := (List.forall₂_and_left t.parts e.parts).2
            ⟨fun _ mem => mem, parts.forall_parts⟩
          refine forall_mem_of_forall₂ inside all fun part part' related all => ?_
          obtain ⟨mem, binders, ok⟩ := related
          rw [← binders]
          exact ih part mem ok all

end Expansion

namespace Book

/-- The terms and the types of the definitions have no free variables. -/
def Closed (book : Book) : Prop :=
  ∀ definition ∈ book.definitions, definition.term.constant = true ∧
    ∀ type, definition.type? = some type → type.constant = true

/-- The term is there, and what it unfolds to has no free variables if it has none. -/
def Expands (book : Book) (t e : Term) : Prop :=
  Unfolds book.lookup t e ∧ e.isHole = false ∧ (t.constant = true → e.constant = true)

variable {book : Book}

/-- The definition of a name and what it is replaced by. -/
theorem expands_answer (closed : book.Closed) {name : String} {path : List String} {depth : Nat}
    {definition : Definition} {e : Term} (found : book.find? name = some definition)
    (ih : ∀ {path t e}, book.expandUpTo depth path t = .ok e → book.Expands t e)
    (ok : (do
      let body ← book.expandUpTo depth path definition.term
      match definition.type? with
      | none => pure body
      | some type =>
          if body.lacksDomain then
            let type ← book.expandUpTo depth path type
            pure (.app false (.lam false definition.name type (.var 0)) body)
          else pure body) = .ok e) :
    Unfolds book.lookup (.ref name) e ∧ e.isHole = false ∧ e.constant = true := by
  have lookup : book.lookup name = some definition.term := by rw [Book.lookup, found]; rfl
  have mem : definition ∈ book.definitions := List.mem_of_find?_eq_some found
  obtain ⟨body, expanded, ok⟩ := ok_of_bind ok
  obtain ⟨unfolds, there, constant⟩ := ih expanded
  replace constant := constant (closed definition mem).1
  have plain : Unfolds book.lookup (.ref name) body ∧ body.isHole = false ∧ body.constant = true :=
    ⟨.plain name _ body lookup unfolds constant there, there, constant⟩
  split at ok
  · cases ok
    exact plain
  · rename_i type annotated
    split at ok
    · obtain ⟨type', expanded', ok⟩ := ok_of_bind ok
      cases ok
      have constant' := (ih expanded').2.2 ((closed definition mem).2 type annotated)
      have whole : (Term.app false (.lam false definition.name type' (.var 0)) body).constant = true := by
        simp only [Term.constant, Term.allVars] at constant constant' ⊢
        rw [constant, constant']
        decide
      exact ⟨.annotated name _ body _ type' lookup unfolds whole, rfl, whole⟩
    · cases ok
      exact plain

/-- A term that is there is expanded by `Term.expandWith`, if the answers are what references expand
to. -/
theorem expands_expandWith {unfold : String → Option (Except DefinitionFailure Term)} {t e : Term}
    (answers : ∀ name e, unfold name = some (.ok e) →
      Unfolds book.lookup (.ref name) e ∧ e.isHole = false ∧ e.constant = true)
    (silent : ∀ name, unfold name = none → book.lookup name = none) (there : t.isHole = false)
    (ok : t.expandWith unfold = .ok e) : book.Expands t e := by
  refine ⟨.of_expandWith (fun name e answer => (answers name e answer).1) silent ok, ?_,
    Term.allVars_expandWith (fun name e answer => Term.constant_below (answers name e answer).2.2) ok⟩
  by_cases isRef : ∃ name, t = .ref name
  · obtain ⟨name, rfl⟩ := isRef
    rcases Term.expandWith_ref ok with answer | ⟨-, rfl⟩
    · exact (answers name e answer).2.1
    · rfl
  · rw [not_exists] at isRef
    rw [((Term.expandWith_ok_iff isRef).1 ok).eq_withParts, Term.isHole_withParts, there]

/-- The expansion of a term is what it expands to. -/
theorem expands_expandUpTo (closed : book.Closed) (depth : Nat) {path : List String} {t e : Term}
    (ok : book.expandUpTo depth path t = .ok e) : book.Expands t e := by
  induction depth generalizing path t e with
  | zero =>
      rw [expandUpTo] at ok
      split at ok
      · cases ok
      · rename_i there
        refine expands_expandWith (fun name e answer => ?_) (fun name none => ?_)
          (Bool.not_eq_true _ ▸ there) ok
        · obtain ⟨_, -, failed⟩ := Option.map_eq_some_iff.1 answer
          cases failed
        · rw [Book.lookup, Option.map_eq_none_iff.1 none]
          rfl
  | succ depth ih =>
      rw [expandUpTo] at ok
      split at ok
      · cases ok
      · rename_i there
        refine expands_expandWith (fun name e answer => ?_) (fun name none => ?_)
          (Bool.not_eq_true _ ▸ there) ok
        · obtain ⟨definition, found, answer⟩ := Option.map_eq_some_iff.1 answer
          dsimp only at answer
          split at answer
          · cases answer
          · exact expands_answer closed found ih answer
        · rw [Book.lookup, Option.map_eq_none_iff.1 none]
          rfl

/-- A term unfolds to its expansion. -/
theorem unfolds_expand (closed : book.Closed) {t e : Term} (ok : book.expand t = .ok e) :
    Unfolds book.lookup t e :=
  (expands_expandUpTo closed _ ok).1

end Book

end BoxCalculus
