import BoxCalculus.Proofs.ReferenceCycles
import Mathlib.Logic.Function.Basic

/-!
# Books over whole runs

A book comes about by calls that add one definition or the definitions of a source text, and any of
them may fail. `Book.Performs` says what a single call does: a call that fails leaves the book as it
was, except that the definitions of a source text before the first name that is taken stay in it. So
in whatever way a book has come about, no name is defined twice, the names are those that can be
looked up, and what has been added keeps its place (`Book.run_invariant`).

An `IndexedBook` has two parts, a table of definitions and a list of names, and adding a definition
changes one after the other. The parts never disagree: after the same calls they are the table and
the list of the book (`IndexedBook.after_eq`).
-/

namespace BoxCalculus

/-- A call that adds to a book. -/
inductive BookCall where
  | define (definition : Definition)
  | load (file source : String)

namespace Book

/-- Carry out a call. -/
def perform (ar : Arith) (book : Book) : BookCall → Book × Option SourceError
  | .define definition =>
      match book.define definition with
      | .ok extended => (extended, none)
      | .error clash => (book, some (.clashing clash))
  | .load file source => book.loadSource ar file source

/-- The book after calls, from the empty one on. -/
def after (ar : Arith) (calls : List BookCall) : Book :=
  calls.foldl (fun book call => (book.perform ar call).1) .empty

/-- `Performs ar book call extended error?` says that the call turns the book into `extended` and
reports the error, if there is one. -/
inductive Performs (ar : Arith) (book : Book) : BookCall → Book → Option SourceError → Prop where
  /-- A definition of a new name comes last. -/
  | defined {definition} (fresh : definition.name ∉ book.names) :
      Performs ar book (.define definition) ⟨book.definitions ++ [definition]⟩ none
  /-- A definition of a name that is taken is not added. -/
  | taken {definition previous} (there : previous ∈ book.definitions)
      (same : previous.name = definition.name) :
      Performs ar book (.define definition) book
        (some (.clashing ⟨definition.name, definition.pos, previous.pos⟩))
  /-- Nothing of a malformed source text is added. -/
  | malformed {file source e} (unreadable : parseFile ar file source = .error e) :
      Performs ar book (.load file source) book (some (.malformed e))
  /-- The definitions of a source text come last, in order. -/
  | loaded {file source definitions} (read : parseFile ar file source = .ok definitions)
      (distinct : (book.names ++ definitions.map Definition.name).Nodup) :
      Performs ar book (.load file source) ⟨book.definitions ++ definitions⟩ none
  /-- Those before the first one whose name is taken, by the book or by one of them, are added. -/
  | cutShort {file source front definition rest previous}
      (read : parseFile ar file source = .ok (front ++ definition :: rest))
      (distinct : (book.names ++ front.map Definition.name).Nodup)
      (there : previous ∈ book.definitions ++ front) (same : previous.name = definition.name) :
      Performs ar book (.load file source) ⟨book.definitions ++ front⟩
        (some (.clashing ⟨definition.name, definition.pos, previous.pos⟩))

variable {ar : Arith} {book extended : Book} {definition previous : Definition} {name : String}

/-! ## Looking up -/

/-- A definition is found under a name if the name is in the book. -/
theorem isSome_find?_iff : (book.find? name).isSome ↔ name ∈ book.names := by
  rw [← not_iff_not, Option.not_isSome_iff_eq_none]
  exact find?_eq_none_iff

/-- A name stands for a term if it is in the book. -/
theorem isSome_lookup_iff_mem_names : (book.lookup name).isSome ↔ name ∈ book.names := by
  rw [lookup, Option.isSome_map, isSome_find?_iff]

/-- Where no name stands twice, each definition is the one that is found under its name. -/
theorem find?_name_eq (distinct : book.names.Nodup) (there : definition ∈ book.definitions) :
    book.find? definition.name = some definition := by
  obtain ⟨found, is_found⟩ := Option.isSome_iff_exists.1
    (isSome_find?_iff.2 (List.mem_map_of_mem there))
  have same : found.name = definition.name := by simpa using List.find?_some is_found
  rw [is_found, List.inj_on_of_nodup_map distinct (List.mem_of_find?_eq_some is_found) there same]

/-! ## One definition -/

/-- A definition of a new name comes last. -/
theorem define_of_fresh (fresh : definition.name ∉ book.names) :
    book.define definition = .ok ⟨book.definitions ++ [definition]⟩ := by
  rw [define, find?_eq_none_iff.2 fresh]

/-- A definition of a name that is taken clashes with the one that has it. -/
theorem define_of_taken (distinct : book.names.Nodup) (there : previous ∈ book.definitions)
    (same : previous.name = definition.name) :
    book.define definition = .error ⟨definition.name, definition.pos, previous.pos⟩ := by
  rw [define, ← same, find?_name_eq distinct there]

/-! ## Definitions in order -/

/-- Definitions of new names are all added before any that follow. -/
theorem defineAll_append {front rest : List Definition}
    (distinct : (book.names ++ front.map Definition.name).Nodup) :
    book.defineAll (front ++ rest) = defineAll ⟨book.definitions ++ front⟩ rest := by
  induction front generalizing book with
  | nil => simp
  | cons first front ih =>
      have fresh : first.name ∉ book.names := by
        intro taken
        exact List.disjoint_of_nodup_append distinct taken List.mem_cons_self
      have longer : names ⟨book.definitions ++ [first]⟩ ++ front.map Definition.name =
          book.names ++ (first :: front).map Definition.name := by
        simp [names]
      rw [List.cons_append, defineAll, define_of_fresh fresh]
      show defineAll ⟨book.definitions ++ [first]⟩ (front ++ rest) = _
      rw [ih (by rwa [longer]), List.append_assoc, List.singleton_append]

/-- Either all names are new, or there is a first one that is taken. -/
theorem distinct_or_taken (distinct : book.names.Nodup) (definitions : List Definition) :
    (book.names ++ definitions.map Definition.name).Nodup ∨
      ∃ front definition rest previous, definitions = front ++ definition :: rest ∧
        (book.names ++ front.map Definition.name).Nodup ∧
        previous ∈ book.definitions ++ front ∧ previous.name = definition.name := by
  induction definitions using List.reverseRecOn with
  | nil => exact .inl (by simpa using distinct)
  | append_singleton definitions last ih =>
      rcases ih with distinct' | ⟨front, definition, rest, previous, rfl, first⟩
      · by_cases taken : last.name ∈ (book.definitions ++ definitions).map Definition.name
        · obtain ⟨previous, there, same⟩ := List.mem_map.1 taken
          exact .inr ⟨definitions, last, [], previous, rfl, distinct', there, same⟩
        · rw [List.map_append] at taken
          rw [List.map_append, ← List.append_assoc, List.map_singleton]
          exact .inl (List.concat_eq_append ▸ List.Nodup.concat taken distinct')
      · exact .inr ⟨front, definition, rest ++ [last], previous, by simp, first⟩

/-! ## One call -/

/-- What a call is said to do is what it does. -/
theorem Performs.perform_eq {call : BookCall} {error? : Option SourceError}
    (distinct : book.names.Nodup) (performs : Performs ar book call extended error?) :
    book.perform ar call = (extended, error?) := by
  cases performs with
  | defined fresh => rw [perform, define_of_fresh fresh]
  | taken there same => rw [perform, define_of_taken distinct there same]
  | malformed unreadable => rw [perform, loadSource, unreadable]
  | @loaded _ _ definitions read distinct =>
      have all : book.defineAll (definitions ++ []) = defineAll ⟨book.definitions ++ definitions⟩ [] :=
        defineAll_append distinct
      rw [List.append_nil] at all
      rw [perform, loadSource, read]
      dsimp only
      rw [all]
      rfl
  | @cutShort _ _ front definition _ previous read distinct' there same =>
      have taken : define ⟨book.definitions ++ front⟩ definition =
          .error ⟨definition.name, definition.pos, previous.pos⟩ :=
        define_of_taken (by rwa [names, List.map_append]) there same
      rw [perform, loadSource, read]
      dsimp only
      rw [defineAll_append distinct', defineAll, taken]
      rfl

/-- Each call does one of the things that calls do. -/
theorem exists_performs (ar : Arith) (distinct : book.names.Nodup) (call : BookCall) :
    ∃ extended error?, Performs ar book call extended error? := by
  cases call with
  | define definition =>
      by_cases taken : definition.name ∈ book.names
      · obtain ⟨previous, there, same⟩ := List.mem_map.1 taken
        exact ⟨_, _, .taken there same⟩
      · exact ⟨_, _, .defined taken⟩
  | load file source =>
      cases read : parseFile ar file source with
      | error e => exact ⟨_, _, .malformed read⟩
      | ok definitions =>
          rcases distinct_or_taken distinct definitions with
            distinct | ⟨front, definition, rest, previous, rfl, distinct, there, same⟩
          · exact ⟨_, _, .loaded read distinct⟩
          · exact ⟨_, _, .cutShort read distinct there same⟩

/-- The relation says exactly what a call does. -/
theorem perform_eq_iff {call : BookCall} {error? : Option SourceError}
    (distinct : book.names.Nodup) :
    book.perform ar call = (extended, error?) ↔ Performs ar book call extended error? := by
  constructor
  · intro performed
    obtain ⟨_, _, performs⟩ := exists_performs ar distinct call
    cases (performs.perform_eq distinct).symm.trans performed
    exact performs
  · exact Performs.perform_eq distinct

/-- A call adds definitions of new names behind those that are there. -/
theorem exists_added (ar : Arith) (distinct : book.names.Nodup) (call : BookCall) :
    ∃ added, (book.perform ar call).1 = ⟨book.definitions ++ added⟩ ∧
      (book.names ++ added.map Definition.name).Nodup := by
  obtain ⟨extended, error?, performs⟩ := exists_performs ar distinct call
  rw [performs.perform_eq distinct]
  cases performs with
  | @defined definition fresh =>
      exact ⟨[definition], rfl, List.concat_eq_append ▸ List.Nodup.concat fresh distinct⟩
  | taken | malformed => exact ⟨[], by simp, by simpa using distinct⟩
  | loaded _ distinct | cutShort _ distinct => exact ⟨_, rfl, distinct⟩

/-! ## Runs -/

/-- The last call is carried out on the book after the others. -/
theorem after_append_singleton (ar : Arith) (calls : List BookCall) (call : BookCall) :
    after ar (calls ++ [call]) = ((after ar calls).perform ar call).1 := by
  rw [after, List.foldl_append]
  rfl

/-- However a book has come about, no name is defined twice. -/
theorem nodup_names_after (ar : Arith) (calls : List BookCall) : (after ar calls).names.Nodup := by
  induction calls using List.reverseRecOn with
  | nil => exact List.nodup_nil
  | append_singleton calls call ih =>
      obtain ⟨added, same, distinct⟩ := exists_added ar ih call
      rw [after_append_singleton, same, names, List.map_append]
      exact distinct

/-- More calls only add to a book, behind what is there. -/
theorem extends_after_append (ar : Arith) (calls later : List BookCall) :
    (after ar (calls ++ later)).Extends (after ar calls) := by
  induction later using List.reverseRecOn with
  | nil =>
      rw [List.append_nil]
      exact List.prefix_rfl
  | append_singleton later call ih =>
      obtain ⟨added, same, -⟩ := exists_added ar (nodup_names_after ar (calls ++ later)) call
      rw [← List.append_assoc, after_append_singleton, same]
      exact ih.trans (List.prefix_append _ _)

/-- `book.Holds place definition` says that the definition has this place in the book, also among its
names, and that it is what the name stands for. -/
structure Holds (book : Book) (place : Nat) (definition : Definition) : Prop where
  listed : book.definitions[place]? = some definition
  named : book.names[place]? = some definition.name
  found : book.find? definition.name = some definition
  meant : book.lookup definition.name = some definition.term

/-- A definition that stands at a place is held there. -/
theorem holds_of_listed (distinct : book.names.Nodup) {place : Nat}
    (listed : book.definitions[place]? = some definition) : book.Holds place definition := by
  have found := find?_name_eq distinct (List.mem_of_getElem? listed)
  exact ⟨listed, by rw [names, List.getElem?_map, listed]; rfl, found, by rw [lookup, found]; rfl⟩

end Book

/-- A book in two parts: the definitions by name, and the names in order. -/
structure IndexedBook where
  table : String → Option Definition
  order : List String

/-- The two parts of a book. -/
def Book.indexed (book : Book) : IndexedBook :=
  ⟨book.find?, book.names⟩

namespace IndexedBook

/-- The book without definitions. -/
def empty : IndexedBook := ⟨fun _ => none, []⟩

/-- Add a definition to both parts, unless its name is in the table. -/
def define (book : IndexedBook) (definition : Definition) : IndexedBook × Option Clash :=
  match book.table definition.name with
  | some previous => (book, some ⟨definition.name, definition.pos, previous.pos⟩)
  | none =>
      let book := { book with table := Function.update book.table definition.name definition }
      let book := { book with order := book.order ++ [definition.name] }
      (book, none)

/-- Add definitions in order, up to the first whose name is in the table. -/
def defineAll (book : IndexedBook) : List Definition → IndexedBook × Option Clash
  | [] => (book, none)
  | definition :: rest =>
      match book.define definition with
      | (book, some clash) => (book, some clash)
      | (book, none) => book.defineAll rest

/-- Carry out a call. -/
def perform (ar : Arith) (book : IndexedBook) : BookCall → IndexedBook × Option SourceError
  | .define definition =>
      let (book, clash?) := book.define definition
      (book, clash?.map .clashing)
  | .load file source =>
      match parseFile ar file source with
      | .error e => (book, some (.malformed e))
      | .ok definitions =>
          let (book, clash?) := book.defineAll definitions
          (book, clash?.map .clashing)

/-- The book after calls, from the empty one on. -/
def after (ar : Arith) (calls : List BookCall) : IndexedBook :=
  calls.foldl (fun book call => (book.perform ar call).1) .empty

/-- Both parts are updated as the book is. -/
theorem define_indexed (book : Book) (definition : Definition) :
    book.indexed.define definition =
      match book.define definition with
      | .ok extended => (extended.indexed, none)
      | .error clash => (book.indexed, some clash) := by
  cases found : book.find? definition.name with
  | some previous =>
      rw [define, Book.define, found]
      show (match book.find? definition.name with | some _ => _ | none => _) = _
      rw [found]
  | none =>
      have table : Function.update book.find? definition.name definition =
          Book.find? ⟨book.definitions ++ [definition]⟩ := by
        funext name
        rw [Book.find?, List.find?_append]
        by_cases same : name = definition.name
        · subst same
          rw [Function.update_self, show book.definitions.find? _ = none from found]
          simp
        · rw [Function.update_of_ne same]
          simp [Book.find?, Ne.symm same]
      rw [define, Book.define, found]
      show (match book.find? definition.name with | some _ => _ | none => _) = _
      rw [found]
      simp [Book.indexed, Book.names, table]

/-- Adding definitions updates both parts as the book. -/
theorem defineAll_indexed (book : Book) (definitions : List Definition) :
    book.indexed.defineAll definitions =
      ((book.defineAll definitions).1.indexed, (book.defineAll definitions).2) := by
  induction definitions generalizing book with
  | nil => rfl
  | cons definition rest ih =>
      rw [defineAll, define_indexed, Book.defineAll]
      cases book.define definition with
      | error clash => rfl
      | ok extended => exact ih extended

/-- A call updates both parts as the book. -/
theorem perform_indexed (ar : Arith) (book : Book) (call : BookCall) :
    book.indexed.perform ar call =
      ((book.perform ar call).1.indexed, (book.perform ar call).2) := by
  cases call with
  | define definition =>
      rw [perform, define_indexed, Book.perform]
      cases book.define definition <;> rfl
  | load file source =>
      rw [perform, Book.perform, Book.loadSource]
      cases parseFile ar file source with
      | error e => rfl
      | ok definitions =>
          dsimp only
          rw [defineAll_indexed]

/-- The two parts are those of the book after the same calls. -/
theorem after_eq (ar : Arith) (calls : List BookCall) :
    after ar calls = (Book.after ar calls).indexed := by
  induction calls using List.reverseRecOn with
  | nil => rfl
  | append_singleton calls call ih =>
      rw [Book.after_append_singleton, after, List.foldl_append]
      show ((after ar calls).perform ar call).1 = _
      rw [ih, perform_indexed]

end IndexedBook

/-- After any calls, whether they have succeeded or not, no name stands twice in the book, what can be
looked up are its names, and each definition keeps its place under all later calls. A call does what
`Performs` says. All this holds of the two parts of an indexed book as well, since they are the table
and the names of the book, and report the same errors. -/
theorem Book.run_invariant (ar : Arith) (calls : List BookCall) :
    (after ar calls).names.Nodup ∧
    (∀ name, ((after ar calls).find? name).isSome ↔ name ∈ (after ar calls).names) ∧
    (∀ name, ((after ar calls).lookup name).isSome ↔ name ∈ (after ar calls).names) ∧
    (∀ later place definition, (after ar calls).definitions[place]? = some definition →
      (after ar (calls ++ later)).Holds place definition) ∧
    (∀ call extended error?, (after ar calls).perform ar call = (extended, error?) ↔
      Performs ar (after ar calls) call extended error?) ∧
    IndexedBook.after ar calls = (after ar calls).indexed ∧
    ∀ call, (IndexedBook.after ar calls).perform ar call =
      (((after ar calls).perform ar call).1.indexed, ((after ar calls).perform ar call).2) := by
  have distinct := nodup_names_after ar calls
  refine ⟨distinct, fun name => isSome_find?_iff, fun name => isSome_lookup_iff_mem_names, ?_,
    fun call extended error? => perform_eq_iff distinct, IndexedBook.after_eq ar calls, fun call => ?_⟩
  · intro later place definition listed
    refine holds_of_listed (nodup_names_after ar (calls ++ later)) ?_
    obtain ⟨added, same⟩ := extends_after_append ar calls later
    rw [← same]
    exact List.getElem?_append_left (List.getElem?_eq_some_iff.1 listed).1 ▸ listed
  · rw [IndexedBook.after_eq, IndexedBook.perform_indexed]

/-- The second of two definitions keeps its place when a definition of its name is refused, a source
text is malformed, and another one is loaded up to a name that it defines itself. -/
theorem Book.run_invariant_clashes : ∃ definition,
    (after .word [.load "a" "x = Type y = x"]).definitions[1]? = some definition ∧
    (after .word ([.load "a" "x = Type y = x"] ++
      [.define ⟨"y", none, .univ, .start "b"⟩, .load "c" "u = (x", .load "d" "z = y z = x w = z"])).Holds
        1 definition ∧
    (after .word ([.load "a" "x = Type y = x"] ++
      [.define ⟨"y", none, .univ, .start "b"⟩, .load "c" "u = (x",
        .load "d" "z = y z = x w = z"])).names = ["x", "y", "z"] := by
  have two : (after .word [.load "a" "x = Type y = x"]).definitions.length = 2 := by decide +kernel
  have listed := List.getElem?_eq_getElem (two ▸ Nat.one_lt_two)
  exact ⟨_, listed, (run_invariant .word _).2.2.2.1 _ 1 _ listed, by decide +kernel⟩

end BoxCalculus
