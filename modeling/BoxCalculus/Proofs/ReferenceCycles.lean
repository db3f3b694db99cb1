import BoxCalculus.Proofs.BookExtension
import Mathlib.Data.List.Nodup
import Mathlib.Data.List.Perm.Subperm

/-!
# Cycles of references

Expanding a term follows its references from definition to definition. `Book.Expansion` gives the rules
for this without a bound on how far references are followed, so a term has a derivation only if that
comes to an end. It always does, with what `Book.expand` computes as its only outcome
(`Book.expansion_iff`): a path has no name twice, and there are only so many names.

A success says that nothing that is defined is left, and that no cycle can be reached through the terms
of definitions. A failure names a cycle, each name of which is in the term or in the annotation of the
one before (`Book.expand_outcome`).
-/

namespace BoxCalculus

open Relation (ReflTransGen TransGen)

/-- The names a term refers to are those of its references. -/
theorem Term.mem_refNames {t : Term} {name : String} : name ∈ t.refNames ↔ name ∈ t.refs := by
  rw [refNames, List.mem_eraseDups, List.mem_mergeSort]

namespace Book

mutual

/-- `book.Expansion path t outcome` says that expanding the term below the references in `path` ends
with the outcome. -/
inductive Expansion (book : Book) : List String → Term → Except DefinitionFailure Term → Prop where
  | unknown (path name) :
      book.find? name = none → Expansion book path (.ref name) (.ok (.ref name))
  | cycle (path name definition) :
      book.find? name = some definition → name ∈ path →
      Expansion book path (.ref name) (.error (.cycle (path ++ [name])))
  | body (path name definition outcome) :
      book.find? name = some definition → name ∉ path →
      Expansion book (path ++ [name]) definition.term outcome →
      (∀ body, outcome = .ok body → definition.type? = none ∨ body.lacksDomain = false) →
      Expansion book path (.ref name) outcome
  | annotated (path name definition given body outcome) :
      book.find? name = some definition → name ∉ path →
      Expansion book (path ++ [name]) definition.term (.ok body) →
      definition.type? = some given → body.lacksDomain = true →
      Expansion book (path ++ [name]) given outcome →
      Expansion book path (.ref name)
        (outcome.map fun type => .app false (.lam false definition.name type (.var 0)) body)
  | parts (path t outcome) :
      (∀ name, t ≠ .ref name) → Expansions book path (t.parts.map Prod.snd) outcome →
      Expansion book path t (outcome.map t.withParts)

/-- `book.Expansions path ts outcome` says that expanding the terms in turn, up to the first failure,
ends with the outcome. -/
inductive Expansions (book : Book) :
    List String → List Term → Except DefinitionFailure (List Term) → Prop where
  | nil (path) : Expansions book path [] (.ok [])
  | cons (path t ts e outcome) :
      Expansion book path t (.ok e) → Expansions book path ts outcome →
      Expansions book path (t :: ts) (outcome.map (e :: ·))
  | failed (path t ts failure) :
      Expansion book path t (.error failure) → Expansions book path (t :: ts) (.error failure)

end

variable {book : Book}

mutual

/-- The rules leave no choice. -/
theorem Expansion.unique : ∀ {path : List String} {t : Term}
    {outcome other : Except DefinitionFailure Term},
    book.Expansion path t outcome → book.Expansion path t other → outcome = other
  | _, _, _, _, .unknown path name unknown, second => by
      cases second with
      | unknown => rfl
      | cycle _ _ _ found => cases unknown.symm.trans found
      | body _ _ _ _ found => cases unknown.symm.trans found
      | annotated _ _ _ _ _ _ found => cases unknown.symm.trans found
      | parts _ _ _ other => exact absurd rfl (other name)
  | _, _, _, _, .cycle path name definition found met, second => by
      cases second with
      | unknown _ _ unknown => cases unknown.symm.trans found
      | cycle => rfl
      | body _ _ _ _ _ fresh => exact absurd met fresh
      | annotated _ _ _ _ _ _ _ fresh => exact absurd met fresh
      | parts _ _ _ other => exact absurd rfl (other name)
  | _, _, _, _, .body path name definition outcome found fresh first complete, second => by
      cases second with
      | unknown _ _ unknown => cases unknown.symm.trans found
      | cycle _ _ _ _ met => exact absurd met fresh
      | body _ _ _ _ found' _ first' =>
          cases found.symm.trans found'
          exact first.unique first'
      | annotated _ _ _ given body _ found' _ first' annotated lacks =>
          cases found.symm.trans found'
          rcases complete body (first.unique first') with none | has
          · cases none.symm.trans annotated
          · cases has.symm.trans lacks
      | parts _ _ _ other => exact absurd rfl (other name)
  | _, _, _, _, .annotated path name definition given body outcome found fresh first type lacks rest,
      second => by
      cases second with
      | unknown _ _ unknown => cases unknown.symm.trans found
      | cycle _ _ _ _ met => exact absurd met fresh
      | body _ _ _ _ found' _ first' complete =>
          cases found.symm.trans found'
          rcases complete body (first.unique first').symm with none | has
          · cases none.symm.trans type
          · cases has.symm.trans lacks
      | annotated _ _ _ given body _ found' _ first' type' _ rest' =>
          cases found.symm.trans found'
          cases type.symm.trans type'
          cases first.unique first'
          rw [rest.unique rest']
      | parts _ _ _ other => exact absurd rfl (other name)
  | _, _, _, _, .parts path t outcome other first, second => by
      cases second with
      | unknown _ name => exact absurd rfl (other name)
      | cycle _ name => exact absurd rfl (other name)
      | body _ name => exact absurd rfl (other name)
      | annotated _ name => exact absurd rfl (other name)
      | parts _ _ _ _ first' => rw [first.unique first']

/-- Terms have one outcome only. -/
theorem Expansions.unique : ∀ {path : List String} {ts : List Term}
    {outcome other : Except DefinitionFailure (List Term)},
    book.Expansions path ts outcome → book.Expansions path ts other → outcome = other
  | _, _, _, _, .nil path, second => by
      cases second
      rfl
  | _, _, _, _, .cons path t ts e outcome first rest, second => by
      cases second with
      | cons _ _ _ _ _ first' rest' =>
          cases first.unique first'
          rw [rest.unique rest']
      | failed _ _ _ _ first' => cases first.unique first'
  | _, _, _, _, .failed path t ts failure first, second => by
      cases second with
      | cons _ _ _ _ _ first' => cases first.unique first'
      | failed _ _ _ _ first' =>
          cases first.unique first'
          rfl

end

/-- Terms that can be expanded can be expanded in turn. -/
theorem Expansions.of_each {path : List String} {f : Term → Except DefinitionFailure Term}
    {ts : List Term} (each : ∀ t ∈ ts, book.Expansion path t (f t)) :
    book.Expansions path ts (ts.mapM f) := by
  induction ts with
  | nil => exact .nil path
  | cons t ts ih =>
      have first := each t List.mem_cons_self
      have rest := ih fun u mem => each u (.tail _ mem)
      rw [List.mapM_cons]
      cases expanded : f t with
      | error failure =>
          rw [expanded] at first
          exact .failed path t ts failure first
      | ok e =>
          rw [expanded] at first
          show book.Expansions path (t :: ts) (ts.mapM f >>= fun es => pure (e :: es))
          rw [bind_pure_comp]
          exact .cons path t ts e _ first rest

/-- A term can be expanded if its references can be. -/
theorem Expansion.of_expandWith {path : List String}
    {unfold : String → Option (Except DefinitionFailure Term)}
    (answers : ∀ name outcome, unfold name = some outcome → book.Expansion path (.ref name) outcome)
    (silent : ∀ name, unfold name = none → book.find? name = none) (t : Term) :
    book.Expansion path t (t.expandWith unfold) := by
  induction t using Term.byParts with
  | step t ih =>
      by_cases isRef : ∃ name, t = .ref name
      · obtain ⟨name, rfl⟩ := isRef
        rw [Term.expandWith]
        cases answer : unfold name with
        | none => exact .unknown path name (silent name answer)
        | some outcome => exact answers name outcome answer
      · rw [not_exists] at isRef
        rw [Term.expandWith_eq isRef]
        exact .parts path t _ isRef (.of_each (List.forall_mem_map.2 ih))

/-- Every definition has a term, and every annotation is there. -/
def Gapless (book : Book) : Prop :=
  ∀ definition ∈ book.definitions,
    definition.term.isHole = false ∧ ∀ type, definition.type? = some type → type.isHole = false

/-- No name stands twice on a path, and all its names are defined. -/
structure Path (book : Book) (path : List String) : Prop where
  distinct : path.Nodup
  defined : ∀ name ∈ path, name ∈ book.names

/-- A name that is found is one of the book. -/
theorem mem_names_of_find? {name : String} {definition : Definition}
    (found : book.find? name = some definition) : name ∈ book.names := by
  have same : definition.name = name := by simpa using List.find?_some found
  exact List.mem_map.2 ⟨definition, List.mem_of_find?_eq_some found, same⟩

/-- A name is not found if it is not in the book. -/
theorem find?_eq_none_iff {name : String} : book.find? name = none ↔ name ∉ book.names := by
  simp [find?, names, List.find?_eq_none]

/-- A path is not longer than the book. -/
theorem Path.length_le {path : List String} (valid : book.Path path) :
    path.length ≤ book.length := by
  have shorter := (valid.distinct.subperm fun name mem => valid.defined name mem).length_le
  rwa [names, List.length_map] at shorter

/-- A path goes on to a name that is defined and not yet on it. -/
theorem Path.extend {path : List String} {name : String} {definition : Definition}
    (valid : book.Path path) (found : book.find? name = some definition) (fresh : name ∉ path) :
    book.Path (path ++ [name]) := by
  refine ⟨?_, List.forall_mem_append.2 ⟨valid.defined, ?_⟩⟩
  · rw [← List.concat_eq_append]
    exact List.Nodup.concat fresh valid.distinct
  · exact List.forall_mem_singleton.2 (mem_names_of_find? found)

/-- A path as long as the book has all the names that are defined. -/
theorem Path.mem_of_length {path : List String} {name : String} {definition : Definition}
    (valid : book.Path path) (full : book.length ≤ path.length)
    (found : book.find? name = some definition) : name ∈ path := by
  by_contra fresh
  have longer := (valid.extend found fresh).length_le
  rw [List.length_append, List.length_singleton] at longer
  omega

section Total

variable {path : List String} {name : String} {definition : Definition} {depth : Nat}

/-- A reference to a definition expands to the answer for it, if its term and its annotation can be
expanded. -/
theorem Expansion.of_answer (found : book.find? name = some definition) (fresh : name ∉ path)
    (term : book.Expansion (path ++ [name]) definition.term
      (book.expandUpTo depth (path ++ [name]) definition.term))
    (types : ∀ type, definition.type? = some type →
      book.Expansion (path ++ [name]) type (book.expandUpTo depth (path ++ [name]) type)) :
    book.Expansion path (.ref name) (book.answer depth (path ++ [name]) definition) := by
  rw [answer]
  cases expanded : book.expandUpTo depth (path ++ [name]) definition.term with
  | error failure =>
      rw [expanded] at term
      exact .body path name definition _ found fresh term fun _ same => by cases same
  | ok body =>
      rw [expanded] at term
      cases annotated : definition.type? with
      | none => exact .body path name definition _ found fresh term fun _ _ => .inl annotated
      | some given =>
          show book.Expansion path (.ref name) (if body.lacksDomain then do
            let type ← book.expandUpTo depth (path ++ [name]) given
            pure (.app false (.lam false definition.name type (.var 0)) body) else .ok body)
          by_cases lacks : body.lacksDomain = true
          · rw [if_pos lacks, bind_pure_comp]
            exact .annotated path name definition given body _ found fresh term annotated lacks
              (types given annotated)
          · rw [if_neg lacks]
            refine .body path name definition _ found fresh term fun _ same => ?_
            cases same
            exact .inr (Bool.not_eq_true _ ▸ lacks)

/-- With room for all the names that are not on the path yet, the bound on references in a row is never
what ends an expansion. -/
theorem expansion_expandUpTo (gapless : book.Gapless) {t : Term} (there : t.isHole = false)
    (valid : book.Path path) (room : book.length ≤ depth + path.length) :
    book.Expansion path t (book.expandUpTo depth path t) := by
  induction depth generalizing path t with
  | zero =>
      rw [expandUpTo_eq, there]
      refine .of_expandWith (fun name outcome answered => ?_) (fun name => unfolding_eq_none_iff.1) t
      obtain ⟨definition, found, rfl⟩ := Option.map_eq_some_iff.1 answered
      -- No room is left, so every defined name is on the path and the rules report a cycle as well.
      exact .cycle path name definition found (valid.mem_of_length (by omega) found)
  | succ depth ih =>
      rw [expandUpTo_eq, there]
      refine .of_expandWith (fun name outcome answered => ?_) (fun name => unfolding_eq_none_iff.1) t
      obtain ⟨definition, found, rfl⟩ := Option.map_eq_some_iff.1 answered
      by_cases met : name ∈ path
      · rw [if_pos (by simpa using met)]
        exact .cycle path name definition found met
      · rw [if_neg (by simpa using met)]
        obtain ⟨term_there, annotation_there⟩ := gapless definition (List.mem_of_find?_eq_some found)
        have valid' := valid.extend found met
        have room' : book.length ≤ depth + (path ++ [name]).length := by
          rw [List.length_append, List.length_singleton]
          omega
        exact .of_answer found met (ih term_there valid' room') fun type annotated =>
          ih (annotation_there type annotated) valid' room'

end Total

/-- Following references without a bound comes to an end, with what expanding the term computes. -/
theorem expansion_iff (gapless : book.Gapless) {t : Term} (there : t.isHole = false)
    {outcome : Except DefinitionFailure Term} :
    book.Expansion [] t outcome ↔ outcome = book.expand t := by
  have computed : book.Expansion [] t (book.expand t) :=
    expansion_expandUpTo gapless there ⟨List.nodup_nil, by simp⟩ (Nat.le_add_right _ _)
  constructor
  · exact fun expansion => expansion.unique computed
  · rintro rfl
    exact computed

/-- The second name is in the term of the definition of the first. -/
def Refers (book : Book) (name next : String) : Prop :=
  ∃ definition, book.find? name = some definition ∧ next ∈ definition.term.refNames

/-- The second name is in the term or in the annotation of the definition of the first. -/
def Mentions (book : Book) (name next : String) : Prop :=
  ∃ definition, book.find? name = some definition ∧
    (next ∈ definition.term.refNames ∨ ∃ type, definition.type? = some type ∧ next ∈ type.refNames)

/-- Below the references in `path`, a way from one of the names through others that are defined, none of
them met before, to one that has been met. -/
structure Cycle (book : Book) (path names front : List String) (last : String) : Prop where
  starts : ∃ first ∈ names, (front ++ [last]).head? = some first
  follows : (front ++ [last]).IsChain book.Mentions
  distinct : (path ++ front).Nodup
  defined : ∀ name ∈ front, name ∈ book.names
  returns : last ∈ path ++ front

/-- What an outcome says of the names that have been expanded below the references in `path`. A success
says that what they lead to through the terms of definitions is not on the path and does not lead to
itself. A failure names a cycle. -/
def Tells (book : Book) (path names : List String) : Except DefinitionFailure α → Prop
  | .ok _ => ∀ first ∈ names, ∀ name ∈ book.names, ReflTransGen book.Refers first name →
      name ∉ path ∧ ¬ TransGen book.Refers name name
  | .error failure => ∃ front last, failure = .cycle (path ++ front ++ [last]) ∧
      book.Cycle path names front last

section Telling

variable {path names others : List String} {name : String} {definition : Definition} {α β : Type}
  {outcome : Except DefinitionFailure α}

/-- A function of the result tells the same of the references. -/
theorem Tells.map (tells : book.Tells path names outcome) (f : α → β) :
    book.Tells path names (outcome.map f) := by
  cases outcome with
  | error failure => exact tells
  | ok result => exact tells

/-- A cycle from some names is one from more names. -/
theorem Cycle.mono {front : List String} {last : String} (cycle : book.Cycle path names front last)
    (more : ∀ name ∈ names, name ∈ others) : book.Cycle path others front last := by
  obtain ⟨first, mem, starts⟩ := cycle.starts
  exact { cycle with starts := ⟨first, more first mem, starts⟩ }

/-- A cycle below a reference is one below the path that leads to the reference. -/
theorem Cycle.behind {front : List String} {last : String}
    (cycle : book.Cycle (path ++ [name]) names front last) (found : book.find? name = some definition)
    (mentions : ∀ next ∈ names, book.Mentions name next) :
    book.Cycle path [name] (name :: front) last := by
  obtain ⟨first, mem, starts⟩ := cycle.starts
  have distinct := cycle.distinct
  have returns := cycle.returns
  rw [List.append_assoc, List.singleton_append] at distinct returns
  refine ⟨⟨name, .head _, rfl⟩, ?_, distinct, ?_, returns⟩
  · obtain ⟨rest, same⟩ := List.head?_eq_some_iff.1 starts
    rw [List.cons_append, same]
    exact List.isChain_cons_cons.2 ⟨mentions first mem, same ▸ cycle.follows⟩
  · exact List.forall_mem_cons.2 ⟨mem_names_of_find? found, cycle.defined⟩

/-- If what the term of a definition refers to leads to no cycle, the definition does not. -/
theorem tells_ref {body : Term} (found : book.find? name = some definition) (fresh : name ∉ path)
    (tells : book.Tells (path ++ [name]) definition.term.refs (.ok body)) :
    book.Tells path [name] (.ok body) := by
  -- What is reached from the name is the name itself, or is reached from a reference of its term.
  have beyond : ∀ other ∈ book.names, TransGen book.Refers name other →
      other ∉ path ++ [name] ∧ ¬ TransGen book.Refers other other := by
    intro other defined reached
    obtain ⟨next, ⟨definition', found', mem⟩, reached⟩ := TransGen.head'_iff.1 reached
    cases found.symm.trans found'
    exact tells next (Term.mem_refNames.1 mem) other defined reached
  intro first mem other defined reached
  obtain rfl := List.mem_singleton.1 mem
  rcases Relation.reflTransGen_iff_eq_or_transGen.1 reached with rfl | reached
  · refine ⟨fresh, fun loop => ?_⟩
    exact (beyond _ defined loop).1 (by simp)
  · obtain ⟨outside, acyclic⟩ := beyond other defined reached
    exact ⟨fun met => outside (List.mem_append_left _ met), acyclic⟩

/-- A failure below a reference names a cycle behind the reference. -/
theorem tells_failure {failure : DefinitionFailure} (found : book.find? name = some definition)
    (mentions : ∀ next ∈ names, book.Mentions name next)
    (tells : book.Tells (path ++ [name]) names (.error failure : Except DefinitionFailure α)) :
    book.Tells path [name] (.error failure : Except DefinitionFailure β) := by
  obtain ⟨front, last, rfl, cycle⟩ := tells
  exact ⟨name :: front, last, by simp, cycle.behind found mentions⟩

/-- What is told depends on which names there are, not on their order. -/
theorem Tells.congr (tells : book.Tells path names outcome)
    (same : ∀ name, name ∈ others ↔ name ∈ names) : book.Tells path others outcome := by
  cases outcome with
  | ok result => exact fun first mem => tells first ((same first).1 mem)
  | error failure =>
      obtain ⟨front, last, rfl, cycle⟩ := tells
      exact ⟨front, last, rfl, cycle.mono fun name => (same name).2⟩

end Telling

/-- The references of a term other than a reference are those of its parts. -/
theorem mem_refs_iff_parts {t : Term} (other : ∀ name, t ≠ .ref name) (name : String) :
    name ∈ t.refs ↔ name ∈ (t.parts.map Prod.snd).flatMap Term.refs := by
  cases compound : t.isLeaf with
  | true =>
      cases t with
      | ref name => exact absurd rfl (other name)
      | var => simp [Term.refs, Term.parts]
      | _ => cases compound
  | false => rw [List.flatMap_map, List.mem_flatMap, Term.mem_refs_iff compound]

mutual

/-- What an expansion ends with is true of the references of the term. -/
theorem Expansion.tells : ∀ {path : List String} {t : Term}
    {outcome : Except DefinitionFailure Term},
    book.Expansion path t outcome → book.Path path → book.Tells path t.refs outcome
  | _, _, _, .unknown path name unknown, _ => by
      intro first mem other defined reached
      obtain rfl := List.mem_singleton.1 mem
      rcases Relation.reflTransGen_iff_eq_or_transGen.1 reached with rfl | reached
      · exact absurd defined (find?_eq_none_iff.1 unknown)
      · obtain ⟨next, ⟨definition, found, -⟩, -⟩ := TransGen.head'_iff.1 reached
        cases unknown.symm.trans found
  | _, _, _, .cycle path name definition found met, valid =>
      ⟨[], name, by simp, ⟨name, .head _, rfl⟩, .singleton _, by simpa using valid.distinct, by simp,
        by simpa using met⟩
  | _, _, _, .body path name definition outcome found fresh first _, valid => by
      have inner := first.tells (valid.extend found fresh)
      cases outcome with
      | ok body => exact tells_ref found fresh inner
      | error failure =>
          exact tells_failure found
            (fun next mem => ⟨definition, found, .inl (Term.mem_refNames.2 mem)⟩) inner
  | _, _, _, .annotated path name definition given body outcome found fresh first type _ rest,
      valid => by
      have inner := first.tells (valid.extend found fresh)
      have inner' := rest.tells (valid.extend found fresh)
      cases outcome with
      -- A success is about terms only, which is why the annotation adds nothing to it.
      | ok type => exact tells_ref found fresh inner
      | error failure =>
          exact tells_failure found
            (fun next mem => ⟨definition, found, .inr ⟨given, type, Term.mem_refNames.2 mem⟩⟩) inner'
  | _, _, _, .parts path t outcome other first, valid =>
      ((first.tells valid).congr (mem_refs_iff_parts other)).map t.withParts

/-- The outcome for terms tells of the references of all of them. -/
theorem Expansions.tells : ∀ {path : List String} {ts : List Term}
    {outcome : Except DefinitionFailure (List Term)},
    book.Expansions path ts outcome → book.Path path → book.Tells path (ts.flatMap Term.refs) outcome
  | _, _, _, .nil path, _ => fun _ mem => by cases mem
  | _, _, _, .cons path t ts e outcome first rest, valid => by
      have front := first.tells valid
      have back := rest.tells valid
      rw [List.flatMap_cons]
      cases outcome with
      | ok es => exact fun name mem => (List.mem_append.1 mem).elim (front name) (back name)
      | error failure =>
          obtain ⟨front, last, rfl, cycle⟩ := back
          exact ⟨front, last, rfl, cycle.mono fun _ => List.mem_append_right _⟩
  | _, _, _, .failed path t ts failure first, valid => by
      obtain ⟨front, last, rfl, cycle⟩ := first.tells valid
      exact ⟨front, last, rfl, cycle.mono fun _ => List.mem_append_left _⟩

end

/-- There is a term after expansion if there was one before. -/
theorem Expansion.isHole_eq (gapless : book.Gapless) : ∀ {path : List String} {t : Term}
    {outcome : Except DefinitionFailure Term}, book.Expansion path t outcome →
    ∀ e, outcome = .ok e → e.isHole = t.isHole
  | _, _, _, .unknown path name _, e, same => by
      cases same
      rfl
  | _, _, _, .cycle path name definition _ _, e, same => by cases same
  | _, _, _, .body path name definition outcome found _ first _, e, same => by
      rw [first.isHole_eq gapless e same]
      exact (gapless definition (List.mem_of_find?_eq_some found)).1
  | _, _, _, .annotated _ _ _ _ _ outcome _ _ _ _ _ _, e, same => by
      cases outcome with
      | error failure => cases same
      | ok type =>
          cases same
          rfl
  | _, _, _, .parts path t outcome _ _, e, same => by
      cases outcome with
      | error failure => cases same
      | ok ps =>
          cases same
          exact t.isHole_withParts ps

/-- A term stays as it is if nothing that it refers to is defined. -/
theorem Expansion.of_undefined (path : List String) {t : Term}
    (undefined : ∀ name ∈ t.refs, book.find? name = none) : book.Expansion path t (.ok t) := by
  induction t using Term.byParts with
  | step t ih =>
      by_cases isRef : ∃ name, t = .ref name
      · obtain ⟨name, rfl⟩ := isRef
        exact .unknown path name (undefined name (.head _))
      · rw [not_exists] at isRef
        have each : ∀ p ∈ t.parts.map Prod.snd, book.Expansion path p (.ok p) := by
          refine List.forall_mem_map.2 fun part mem => ih part mem fun name inside => ?_
          refine undefined name ((mem_refs_iff_parts isRef name).2 ?_)
          exact List.mem_flatMap.2 ⟨part.2, List.mem_map_of_mem mem, inside⟩
        have kept : (t.parts.map Prod.snd).mapM (m := Except DefinitionFailure) (fun p => .ok p) =
            .ok (t.parts.map Prod.snd) :=
          (List.mapM_pure (f := id)).trans (congrArg Except.ok (List.map_id _))
        have together := Expansion.parts path t _ isRef (.of_each each)
        rw [kept] at together
        change book.Expansion path t (.ok (t.withParts (t.parts.map Prod.snd))) at together
        rwa [t.withParts_parts] at together

/-- Expanding a term follows its references to an end. If it succeeds, nothing that is defined is left,
so expanding again changes nothing, and no name that the term leads to through the terms of definitions
leads to itself. If it fails, it names a cycle, which starts with a name in the term and goes on with
names in the term or in the annotation of the one before, up to the first that has been met already. -/
theorem expand_outcome (gapless : book.Gapless) {t : Term} (there : t.isHole = false) :
    (∀ outcome, book.Expansion [] t outcome ↔ outcome = book.expand t) ∧
    (∀ e, book.expand t = .ok e →
      (∀ name ∈ e.refNames, name ∉ book.names) ∧ book.expand e = .ok e ∧
      ∀ first ∈ t.refNames, ∀ name ∈ book.names, ReflTransGen book.Refers first name →
        ¬ TransGen book.Refers name name) ∧
    ∀ failure, book.expand t = .error failure →
      ∃ front last, failure = .cycle (front ++ [last]) ∧ book.Cycle [] t.refNames front last := by
  have outcome := fun outcome => @expansion_iff book gapless t there outcome
  have expansion := (outcome (book.expand t)).2 rfl
  have tells := expansion.tells ⟨List.nodup_nil, by simp⟩
  refine ⟨outcome, ?_, ?_⟩
  · intro e ok
    rw [ok] at tells expansion
    have left : ∀ name ∈ e.refs, book.find? name = none :=
      leavesIn_iff_refs.1 (leavesIn_expandUpTo ok)
    have there' : e.isHole = false := (expansion.isHole_eq gapless e rfl).trans there
    refine ⟨?_, ?_, ?_⟩
    · exact fun name mem => find?_eq_none_iff.1 (left name (Term.mem_refNames.1 mem))
    · exact ((expansion_iff gapless there').1 (.of_undefined [] left)).symm
    · exact fun first mem name defined reached =>
        (tells first (Term.mem_refNames.1 mem) name defined reached).2
  · intro failure failed
    rw [failed] at tells
    obtain ⟨front, last, rfl, cycle⟩ := tells
    exact ⟨front, last, rfl, cycle.mono fun _ => Term.mem_refNames.2⟩

/-- Three definitions: `a` has a lambda without a domain and the annotation `{x : b} Type`, `b` is `a`,
and `c` applies the unknown name `d`. -/
def annotationLoop : Book :=
  ⟨[⟨"a", some (.pi false "x" (.ref "b") .univ), .lam false "x" .hole (.var 0), ⟨"", 0, 0⟩⟩,
    ⟨"b", none, .ref "a", ⟨"", 0, 0⟩⟩,
    ⟨"c", none, .app false (.ref "d") .univ, ⟨"", 0, 0⟩⟩]⟩

/-- The term `c a` fails, although `c` can be expanded: `a` needs its annotation, which leads over `b`
back to it. The term `c` alone is expanded to `d Type`. -/
theorem expand_outcome_annotationLoop :
    let t : Term := .app false (.ref "c") (.ref "a")
    let e : Term := .app false (.ref "d") .univ
    annotationLoop.Expansion [] t (.error (.cycle ["a", "b", "a"])) ∧
      (∃ front last, DefinitionFailure.cycle ["a", "b", "a"] = .cycle (front ++ [last]) ∧
        annotationLoop.Cycle [] t.refNames front last) ∧
      annotationLoop.Expansion [] (.ref "c") (.ok e) ∧ annotationLoop.expand e = .ok e ∧
      ¬ TransGen annotationLoop.Refers "c" "c" := by
  intro t e
  have gapless : annotationLoop.Gapless := by simp [Gapless, annotationLoop, Term.isHole]
  have failed : annotationLoop.expand t = .error (.cycle ["a", "b", "a"]) := by rfl
  have expanded : annotationLoop.expand (.ref "c") = .ok e := by rfl
  obtain ⟨computes, -, failure⟩ := expand_outcome gapless (t := t) rfl
  obtain ⟨computes', success, -⟩ := expand_outcome gapless (t := .ref "c") rfl
  obtain ⟨-, again, acyclic⟩ := success e expanded
  refine ⟨(computes _).2 failed.symm, failure _ failed, (computes' _).2 expanded.symm, again, ?_⟩
  exact acyclic "c" (Term.mem_refNames.2 (.head _)) "c" (by simp [names, annotationLoop]) .refl

end Book

end BoxCalculus
