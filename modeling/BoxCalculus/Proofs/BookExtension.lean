import BoxCalculus.Book.Checking
import BoxCalculus.Proofs.CheckedConditions
import BoxCalculus.Proofs.Cosmetics

/-!
# Adding definitions to a book

A definition that is added to a book can change the meaning of an earlier one only if the latter
refers to it, by a name that was unknown before. `Book.openNames` lists these names of a definition:
they are what is left of its references when its term and its annotation have been expanded. As long
as none of them is defined, the definition has the same type over the longer book
(`Book.typeOf_extends`).
-/

namespace BoxCalculus

/-- What is known of the parts of the second term. -/
theorem Parted.and_parts {R : Term → Term → Prop} {P : Term → Prop} {t u : Term}
    (parted : Parted R t u) (parts : ∀ part ∈ u.parts, P part.2) :
    Parted (fun p q => P q ∧ R p q) t u := by
  obtain ⟨ps, each, rfl⟩ := parted
  have inside : ∀ p ∈ ps, P p := by
    rwa [← List.forall_mem_map (f := Prod.snd), Term.terms_withParts each.length_eq.symm] at parts
  exact ⟨ps, ((List.forall₂_and_left ps t.parts).2 ⟨inside, each.flip⟩).flip, rfl⟩

/-- The references of a compound term are those of its parts. -/
theorem Term.mem_refs_iff {t : Term} (compound : t.isLeaf = false) {name : String} :
    name ∈ t.refs ↔ ∃ part ∈ t.parts, name ∈ part.2.refs := by
  cases t with
  | var | ref => cases compound
  | data => simp [refs, parts, Entries.refs_eq_flatMap, or_and_right, exists_or, or_comm]
  | caseOf => simp [refs, parts, Entries.refs_eq_flatMap]
  | _ => simp [refs, parts]

/-- The references of a term are those in its leaves. -/
theorem leavesIn_iff_refs {R : String → Prop} {t : Term} :
    LeavesIn (fun _ => True) R t ↔ ∀ name ∈ t.refs, R name := by
  induction t using Term.byParts with
  | step t ih =>
      cases compound : t.isLeaf with
      | true =>
          cases t with
          | var i => exact iff_of_true (leavesIn_var trivial) (by simp [Term.refs])
          | ref name =>
              refine ⟨fun leaves => List.forall_mem_singleton.2 leaves.here, fun all => ?_⟩
              exact .intro (all name List.mem_cons_self) fun _ mem => by cases mem
          | _ => cases compound
      | false =>
          simp only [Term.mem_refs_iff compound, leavesIn_iff compound]
          constructor
          · rintro parts name ⟨part, mem, inside⟩
            exact (ih part mem).1 (parts part mem) name inside
          · intro all part mem
            exact (ih part mem).2 fun name inside => all name ⟨part, mem, inside⟩

section Expansion

variable {unfold unfold' : String → Option (Except DefinitionFailure Term)} {R : String → Prop}

/-- The references that are left in an expansion are those for which there is no answer, and those
in the answers. -/
theorem Term.leavesIn_expandWith {t e : Term} (silent : ∀ name, unfold name = none → R name)
    (answers : ∀ name x, unfold name = some (.ok x) → LeavesIn (fun _ => True) R x)
    (ok : t.expandWith unfold = .ok e) : LeavesIn (fun _ => True) R e := by
  induction t using Term.byParts generalizing e with
  | step t ih =>
      by_cases isRef : ∃ name, t = .ref name
      · obtain ⟨name, rfl⟩ := isRef
        rcases Term.expandWith_ref ok with answer | ⟨none, rfl⟩
        · exact answers name e answer
        · exact .intro (silent name none) fun _ mem => by cases mem
      · rw [not_exists] at isRef
        obtain ⟨ps, each, rfl⟩ := (Term.expandWith_ok_iff isRef).1 ok
        refine LeavesIn.withParts ?_ each.length_eq.symm ?_
        · cases t with
          | ref name => exact absurd rfl (isRef name)
          | _ => trivial
        · have inside := (List.forall₂_and_left t.parts ps).2 ⟨fun _ mem => mem, each⟩
          exact forall_mem_of_forall₂ inside ih fun part p related step => step related.2

/-- An expansion is the same with other answers, if they are the same for the names that matter:
what is left in the expansion has to have no answer again, and the answers that do not bring in more
have to be kept. -/
theorem Term.expandWith_transfer {t e : Term} (ok : t.expandWith unfold = .ok e)
    (leaves : LeavesIn (fun _ => True) R e)
    (silent : ∀ name, unfold name = none → R name → unfold' name = none)
    (answers : ∀ name x, unfold name = some (.ok x) → LeavesIn (fun _ => True) R x →
      unfold' name = some (.ok x)) : t.expandWith unfold' = .ok e := by
  induction t using Term.byParts generalizing e with
  | step t ih =>
      by_cases isRef : ∃ name, t = .ref name
      · obtain ⟨name, rfl⟩ := isRef
        rcases Term.expandWith_ref ok with answer | ⟨none, rfl⟩
        · rw [Term.expandWith, answers name e answer leaves]
          rfl
        · rw [Term.expandWith, silent name none leaves.here]
          rfl
      · rw [not_exists] at isRef
        have parted := ((Term.expandWith_ok_iff isRef).1 ok).and_parts fun part mem => leaves.part mem
        refine (Term.expandWith_ok_iff isRef).2 (parted.imp fun part mem p related => ?_)
        exact ih part mem related.2 related.1

end Expansion

namespace Book

/-- What a reference to the definition is replaced by, below the references in `path`. -/
def answer (book : Book) (depth : Nat) (path : List String) (definition : Definition) :
    Except DefinitionFailure Term := do
  let body ← book.expandUpTo depth path definition.term
  match definition.type? with
  | none => pure body
  | some type =>
      if body.lacksDomain then
        let type ← book.expandUpTo depth path type
        pure (.app false (.lam false definition.name type (.var 0)) body)
      else pure body

/-- What the references to a name are replaced by, if it is defined. -/
def unfolding (book : Book) : (depth : Nat) → (path : List String) → (name : String) →
    Option (Except DefinitionFailure Term)
  | 0, path, name => (book.find? name).map fun _ => .error (.cycle (path ++ [name]))
  | depth + 1, path, name => (book.find? name).map fun definition =>
      if path.contains name then .error (.cycle (path ++ [name]))
      else book.answer depth (path ++ [name]) definition

/-- A term that is there is expanded by replacing its references. -/
theorem expandUpTo_eq (book : Book) (depth : Nat) (path : List String) (t : Term) :
    book.expandUpTo depth path t =
      if t.isHole then .error (.kernel (.stopped .gap))
      else t.expandWith (book.unfolding depth path) := by
  cases depth <;> rfl

/-- A term has an expansion if it is there and its references can be replaced. -/
theorem expandUpTo_ok_iff {book : Book} {depth : Nat} {path : List String} {t e : Term} :
    book.expandUpTo depth path t = .ok e ↔
      t.isHole = false ∧ t.expandWith (book.unfolding depth path) = .ok e := by
  rw [expandUpTo_eq]
  cases t.isHole <;> simp

/-- A reference stays if its name is not defined. -/
theorem unfolding_eq_none_iff {book : Book} {depth : Nat} {path : List String} {name : String} :
    book.unfolding depth path name = none ↔ book.find? name = none := by
  cases depth with
  | zero => exact Option.map_eq_none_iff
  | succ depth => exact Option.map_eq_none_iff

/-- A reference is replaced if its name is defined and not yet on the path. -/
theorem unfolding_ok_iff {book : Book} {depth : Nat} {path : List String} {name : String}
    {e : Term} :
    book.unfolding depth path name = some (.ok e) ↔
      ∃ below definition, depth = below + 1 ∧ book.find? name = some definition ∧
        path.contains name = false ∧ book.answer below (path ++ [name]) definition = .ok e := by
  cases depth with
  | zero => simp [unfolding]
  | succ depth =>
      rw [unfolding, Option.map_eq_some_iff]
      constructor
      · rintro ⟨definition, found, ok⟩
        split at ok
        · cases ok
        · rename_i fresh
          exact ⟨depth, definition, rfl, found, Bool.not_eq_true _ ▸ fresh, ok⟩
      · rintro ⟨below, definition, same, found, fresh, ok⟩
        obtain rfl : depth = below := by omega
        refine ⟨definition, found, ?_⟩
        rw [fresh]
        exact ok

/-- A reference is replaced by the expanded term of the definition, or by an identity on the
annotation that is applied to it. -/
theorem answer_ok_iff {book : Book} {depth : Nat} {path : List String} {definition : Definition}
    {e : Term} :
    book.answer depth path definition = .ok e ↔
      ∃ body, book.expandUpTo depth path definition.term = .ok body ∧
        (e = body ∧ (definition.type? = none ∨ body.lacksDomain = false) ∨
          ∃ given type, definition.type? = some given ∧ body.lacksDomain = true ∧
            book.expandUpTo depth path given = .ok type ∧
            e = .app false (.lam false definition.name type (.var 0)) body) := by
  rw [answer]
  constructor
  · intro ok
    obtain ⟨body, expanded, ok⟩ := ok_of_bind ok
    refine ⟨body, expanded, ?_⟩
    split at ok
    · rename_i none
      cases ok
      exact .inl ⟨rfl, .inl none⟩
    · rename_i given annotated
      split at ok
      · rename_i lacks
        obtain ⟨type, expanded', ok⟩ := ok_of_bind ok
        cases ok
        exact .inr ⟨given, type, annotated, lacks, expanded', rfl⟩
      · rename_i complete
        cases ok
        exact .inl ⟨rfl, .inr (Bool.not_eq_true _ ▸ complete)⟩
  · rintro ⟨body, expanded,
      ⟨rfl, none | complete⟩ | ⟨given, type, annotated, lacks, expanded', rfl⟩⟩
    · rw [expanded, none]
      rfl
    · rw [expanded]
      cases definition.type? with
      | none => rfl
      | some given => exact if_neg (by rw [complete]; decide)
    · rw [expanded, annotated]
      refine (if_pos lacks).trans ?_
      rw [expanded']
      rfl

/-- What is left in an expansion is not defined. -/
theorem leavesIn_expandUpTo {book : Book} {depth : Nat} {path : List String} {t e : Term}
    (ok : book.expandUpTo depth path t = .ok e) :
    LeavesIn (fun _ => True) (fun name => book.find? name = none) e := by
  induction depth using Nat.strongRecOn generalizing path t e with
  | ind depth ih =>
      obtain ⟨-, ok⟩ := expandUpTo_ok_iff.1 ok
      refine Term.leavesIn_expandWith (fun name => unfolding_eq_none_iff.1) ?_ ok
      intro name x answered
      obtain ⟨below, definition, rfl, -, -, answered⟩ := unfolding_ok_iff.1 answered
      obtain ⟨body, expanded, ⟨rfl, -⟩ | ⟨given, type, -, -, expanded', rfl⟩⟩ :=
        answer_ok_iff.1 answered
      · exact ih below (by omega) expanded
      · refine LeavesIn.app.2 ⟨(leavesIn_iff rfl).2 ?_, ih below (by omega) expanded⟩
        simp only [Term.parts, List.forall_mem_cons]
        exact ⟨ih below (by omega) expanded', leavesIn_var trivial, by simp⟩

/-- `book.Extends shorter` says that the book has the definitions of the shorter one, in the same
order, and then perhaps others. -/
def Extends (book shorter : Book) : Prop :=
  shorter.definitions <+: book.definitions

section Extension

variable {shorter book : Book} (longer : book.Extends shorter)
include longer

/-- A definition of the shorter book is found in the longer one. -/
theorem find?_of_extends {name : String} {definition : Definition}
    (found : shorter.find? name = some definition) : book.find? name = some definition :=
  longer.find?_eq_some found

/-- An expansion is the same over a longer book, with more room for references in a row, if nothing
that is left in it is defined there. -/
theorem expandUpTo_extends {depth deeper : Nat} {path : List String} {t e : Term}
    (room : depth ≤ deeper) (ok : shorter.expandUpTo depth path t = .ok e)
    (leaves : LeavesIn (fun _ => True) (fun name => book.find? name = none) e) :
    book.expandUpTo deeper path t = .ok e := by
  induction depth using Nat.strongRecOn generalizing deeper path t e with
  | ind depth ih =>
      obtain ⟨there, ok⟩ := expandUpTo_ok_iff.1 ok
      refine expandUpTo_ok_iff.2 ⟨there, Term.expandWith_transfer ok leaves ?_ ?_⟩
      · exact fun name _ undefined => unfolding_eq_none_iff.2 undefined
      · intro name x answered leaves
        -- The answer is an expansion at a smaller depth. The path is the same over both books, so a
        -- name that was not on it then is not on it now.
        obtain ⟨below, definition, rfl, found, fresh, answered⟩ := unfolding_ok_iff.1 answered
        obtain ⟨deeper, rfl⟩ : ∃ k, deeper = k + 1 := ⟨deeper - 1, by omega⟩
        have found' := find?_of_extends longer found
        refine unfolding_ok_iff.2 ⟨deeper, definition, rfl, found', fresh, ?_⟩
        have again := @ih below (by omega) deeper (path ++ [name])
        obtain ⟨body, expanded, ⟨rfl, kind⟩ | ⟨given, type, annotated, lacks, expanded', rfl⟩⟩ :=
          answer_ok_iff.1 answered
        · exact answer_ok_iff.2 ⟨_, again (by omega) expanded leaves, .inl ⟨rfl, kind⟩⟩
        · obtain ⟨identity, body_leaves⟩ := LeavesIn.app.1 leaves
          have type_leaves := identity.part (.head _)
          exact answer_ok_iff.2 ⟨body, again (by omega) expanded body_leaves,
            .inr ⟨given, type, annotated, lacks, again (by omega) expanded' type_leaves, rfl⟩⟩

/-- The longer book has at least as many definitions. -/
theorem length_le_of_extends : shorter.length ≤ book.length :=
  longer.length_le

/-- An expansion is the same over a longer book if nothing that is left in it is defined there. -/
theorem expand_extends {t e : Term} (ok : shorter.expand t = .ok e)
    (undefined : ∀ name ∈ e.refs, book.find? name = none) : book.expand t = .ok e :=
  expandUpTo_extends longer (length_le_of_extends longer) ok (leavesIn_iff_refs.2 undefined)

end Extension

/-- The names that are left in the expansion of a term. -/
def namesLeft (book : Book) (t : Term) : List String :=
  match book.expand t with
  | .ok e => e.refs
  | .error _ => []

/-- The names that a definition refers to and that the book does not define: what is left of its
references when its term and its annotation have been expanded. -/
def openNames (book : Book) (definition : Definition) : List String :=
  book.namesLeft definition.term ++ definition.type?.toList.flatMap book.namesLeft

/-- Below references that neither book defines, the two books do not differ. -/
def undefined_condition (ar : Arith) (shorter book : Book) :
    Condition ar shorter.lookup book.lookup where
  holds _ t :=
    LeavesIn (fun _ => True) (fun name => shorter.find? name = none ∧ book.find? name = none) t
  parts _ _ compound := leavesIn_iff compound
  bound _ _ _ := leavesIn_var trivial
  shift _ delta cutoff _ leaves := leaves.shift (fun _ _ => trivial) delta cutoff
  move _ i _ leaves := leaves.shift (fun _ _ => trivial) (ar.add i 1) 0
  subst _ _ _ leaves value := leaves.subst (fun _ _ => trivial) value 0
  unfold _ name d leaves found := by
    have undefined : shorter.find? name = none := leaves.here.1
    rw [lookup, undefined] at found
    cases found
  agree _ name leaves := by
    have undefined : shorter.find? name = none ∧ book.find? name = none := leaves.here
    rw [lookup, lookup, undefined.1, undefined.2]

section Extension

variable {shorter book : Book} (longer : book.Extends shorter)
include longer

/-- A term is expanded to the same over both books, and what is left in the expansion neither of
them defines. -/
theorem expand_both {t e : Term} (ok : shorter.expand t = .ok e)
    (undefined : ∀ name ∈ shorter.namesLeft t, book.find? name = none) :
    book.expand t = .ok e ∧ ∀ ar n, (undefined_condition ar shorter book).holds n e := by
  rw [namesLeft, ok] at undefined
  refine ⟨expand_extends longer ok undefined, fun _ _ => leavesIn_iff_refs.2 fun name mem => ?_⟩
  exact ⟨leavesIn_iff_refs.1 (leavesIn_expandUpTo ok) name mem, undefined name mem⟩

/-- A definition has the same type over a longer book, as long as the names that are left in its
expansion are not defined there. -/
theorem typeOf_extends (ar : Arith) (fuel : Int) (canceled : Bool) {definition : Definition}
    {type : Term} (ok : shorter.typeOf ⟨ar, shorter.lookup, fuel⟩ canceled definition = .ok type)
    (undefined : ∀ name ∈ shorter.openNames definition, book.find? name = none) :
    book.typeOf ⟨ar, book.lookup, fuel⟩ canceled definition = .ok type := by
  rw [openNames, List.forall_mem_append] at undefined
  obtain ⟨term_undefined, type_undefined⟩ := undefined
  rw [typeOf] at ok ⊢
  obtain ⟨body, expanded, ok⟩ := ok_of_bind ok
  obtain ⟨expanded', body_holds⟩ := expand_both longer expanded term_undefined
  let C := undefined_condition ar shorter book
  rw [expanded']
  cases annotated : definition.type? with
  | none =>
      rw [annotated] at ok
      refine Eq.trans ?_ ok
      exact congrArg (Except.mapError DefinitionFailure.kernel)
        (C.kernel_infer_eq fuel canceled (body_holds ar 0))
  | some given =>
      rw [annotated] at ok type_undefined
      obtain ⟨type', type_expanded, ok⟩ := ok_of_bind ok
      obtain ⟨type_expanded', type_holds⟩ :=
        expand_both longer type_expanded fun name mem => type_undefined name (by simpa using mem)
      refine Eq.trans ?_ ok
      simp only [bind, Except.bind, type_expanded']
      rw [C.kernel_check_eq fuel canceled (type_holds ar 0) C.univ,
        C.kernel_check_eq fuel canceled (body_holds ar 0) (type_holds ar 0)]

end Extension

end Book

end BoxCalculus
