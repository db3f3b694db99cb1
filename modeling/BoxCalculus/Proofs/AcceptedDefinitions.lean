import BoxCalculus.Proofs.BookExtension
import BoxCalculus.Rpc.Service

/-!
# Definitions that a service has accepted

A service adds a definition to its book when it has found a type for it over the book as it is then.
Every name of a book that has come about in this way was accepted, and it keeps its type as long as
the names that were left in its expansion are not defined (`check_accepted`).

If one of them is defined later the type can change, and if the definition refers to its own name it
can become circular (`accepted_then_broken`): the checker accepts an unknown name where it does not
ask for its type.
-/

namespace BoxCalculus.Rpc.Service

variable (service : Service)

/-- The book after requests have been carried out in order, from the empty one on, unless the service
breaks down. -/
def bookAfter? (requests : List (Except Fault Call)) : Option Book :=
  requests.foldlM (fun book request => (service.call? book request).map Prod.fst) .empty

/-- The request asks for a definition, which is found to have the type and is added to the book. The
type can be written, so the request is answered. -/
structure Accepts (book : Book) (request : Except Fault Call) (definition : Definition)
    (type : Term) : Prop where
  asks : request >>= Job.prepare service.arith = .ok (.define definition)
  defines : service.define book definition = .ok (⟨book.definitions ++ [definition]⟩, type)
  writes : type.print?.isSome = true

variable {service} {book : Book} {request : Except Fault Call} {definition : Definition}
  {type : Term}

/-- A definition is accepted if its name is not taken and it has a type over the book. -/
theorem define_ok_iff {extended : Book} : service.define book definition = .ok (extended, type) ↔
    book.find? definition.name = none ∧
      book.typeOf (service.kernel book) false definition = .ok type ∧
      extended = ⟨book.definitions ++ [definition]⟩ := by
  have typed : service.typeOf book definition = .ok type ↔
      book.typeOf (service.kernel book) false definition = .ok type := by
    rw [typeOf, mapError_eq_ok, Book.checkDefinition, mapError_eq_ok]
  rw [define, ← typed]
  cases found : book.find? definition.name with
  | some previous => simp [throw, throwThe, MonadExceptOf.throw, bind, Except.bind]
  | none =>
      cases service.typeOf book definition with
      | error fault => simp [bind, Except.bind]
      | ok type' =>
          simp [bind, Except.bind, pure, Except.pure, Book.define, found, Except.mapError, and_comm,
            eq_comm]

/-- What an accepted request does to the book, and what it reports. -/
theorem Accepts.call?_eq (accepts : service.Accepts book request definition type) :
    ∃ text, type.print? = some text ∧ service.call? book request =
      some (⟨book.definitions ++ [definition]⟩, .ok (Outcome.defined definition.name text).value) := by
  obtain ⟨text, written⟩ := Option.isSome_iff_exists.1 accepts.writes
  refine ⟨text, written, ?_⟩
  rw [call?, accepts.asks]
  dsimp only
  rw [run?, accepts.defines]
  dsimp only
  rw [written]
  rfl

/-- A request for something else than a definition leaves the book as it is. -/
theorem run?_fst {job : Job} (other : ∀ definition, job ≠ .define definition)
    {after : Book × Except Fault Outcome} (ran : service.run? book job = some after) :
    after.1 = book := by
  cases job with
  | define definition => exact absurd rfl (other definition)
  | reduce t erase =>
      simp only [run?, bind, Option.bind_eq_some_iff, pure, Option.some.injEq] at ran
      obtain ⟨_, -, _, -, rfl⟩ := ran
      rfl
  | typing definition =>
      simp only [run?, bind, Option.bind_eq_some_iff, pure, Option.some.injEq] at ran
      obtain ⟨_, -, rfl⟩ := ran
      rfl
  | names =>
      cases ran
      rfl

/-- A request that is carried out leaves the book as it is, or a definition is accepted. -/
theorem call?_cases {after : Book × Except Fault Value}
    (carried : service.call? book request = some after) :
    after.1 = book ∨ ∃ definition type, service.Accepts book request definition type := by
  cases asked : request >>= Job.prepare service.arith with
  | error fault =>
      rw [call?, asked] at carried
      cases carried
      exact .inl rfl
  | ok job =>
      rw [call?, asked] at carried
      obtain ⟨⟨later, outcome⟩, ran, rfl⟩ := Option.map_eq_some_iff.1 carried
      by_cases defines : ∃ definition, job = .define definition
      · obtain ⟨definition, rfl⟩ := defines
        rw [run?] at ran
        cases defined : service.define book definition with
        | error fault =>
            rw [defined] at ran
            cases ran
            exact .inl rfl
        | ok out =>
            obtain ⟨extended, type⟩ := out
            rw [defined] at ran
            obtain ⟨text, written, -⟩ := Option.map_eq_some_iff.1 ran
            obtain ⟨-, -, rfl⟩ := define_ok_iff.1 defined
            exact .inr ⟨definition, type, asked, defined, by rw [written, Option.isSome_some]⟩
      · exact .inl (run?_fst (fun definition same => defines ⟨definition, same⟩) ran)

/-- The last request is carried out on the book that the others have left. -/
theorem bookAfter?_append_singleton {requests : List (Except Fault Call)} {final : Book} :
    service.bookAfter? (requests ++ [request]) = some final ↔
      ∃ book, service.bookAfter? requests = some book ∧
        ∃ outcome, service.call? book request = some (final, outcome) := by
  simp [bookAfter?, List.foldlM_append, Option.bind_eq_some_iff]

/-- The book after a request that is accepted. -/
theorem Accepts.bookAfter?_eq (accepts : service.Accepts book request definition type)
    (earlier : List (Except Fault Call)) (reached : service.bookAfter? earlier = some book) :
    service.bookAfter? (earlier ++ [request]) = some ⟨book.definitions ++ [definition]⟩ := by
  obtain ⟨text, -, carried⟩ := accepts.call?_eq
  exact bookAfter?_append_singleton.2 ⟨book, reached, _, carried⟩

/-- A service that has carried out requests had not broken down before, and its book has only
grown. -/
theorem extends_bookAfter? {earlier later : List (Except Fault Call)} {final : Book}
    (reached : service.bookAfter? (earlier ++ later) = some final) :
    ∃ book, service.bookAfter? earlier = some book ∧ final.Extends book := by
  induction later using List.reverseRecOn generalizing final with
  | nil =>
      rw [List.append_nil] at reached
      exact ⟨final, reached, List.prefix_rfl⟩
  | append_singleton later request ih =>
      rw [← List.append_assoc] at reached
      obtain ⟨previous, before, outcome, carried⟩ := bookAfter?_append_singleton.1 reached
      obtain ⟨book, start, grown⟩ := ih before
      refine ⟨book, start, ?_⟩
      rcases call?_cases carried with same | ⟨definition, type, accepts⟩
      · cases same
        exact grown
      · obtain ⟨text, -, added⟩ := accepts.call?_eq
        rw [added] at carried
        cases carried
        exact grown.trans (List.prefix_append _ _)

/-- Each name was defined by a request that was accepted. -/
theorem exists_accepts {requests : List (Except Fault Call)} {final : Book} {name : String}
    (reached : service.bookAfter? requests = some final) (defined : name ∈ final.names) :
    ∃ earlier request later book definition type, requests = earlier ++ request :: later ∧
      service.bookAfter? earlier = some book ∧ definition.name = name ∧
      service.Accepts book request definition type := by
  -- The last request leaves the book as it is or adds one name to it.
  induction requests using List.reverseRecOn generalizing final with
  | nil =>
      cases reached
      cases defined
  | append_singleton requests request ih =>
      obtain ⟨book, before, outcome, carried⟩ := bookAfter?_append_singleton.1 reached
      have earlier (old : name ∈ book.names) : ∃ earlier request' later book definition type,
          requests ++ [request] = earlier ++ request' :: later ∧
          service.bookAfter? earlier = some book ∧ definition.name = name ∧
          service.Accepts book request' definition type := by
        obtain ⟨earlier, request', later, book', definition, type, rfl, start, named, accepts⟩ :=
          ih before old
        exact ⟨earlier, request', later ++ [request], book', definition, type, by simp, start, named,
          accepts⟩
      rcases call?_cases carried with same | ⟨definition, type, accepts⟩
      · cases same
        exact earlier defined
      · obtain ⟨text, -, added⟩ := accepts.call?_eq
        rw [added] at carried
        cases carried
        rw [Book.names, List.map_append, List.mem_append] at defined
        rcases defined with old | new
        · exact earlier old
        · have named : definition.name = name := (List.mem_singleton.1 new).symm
          exact ⟨requests, request, [], book, definition, type, rfl, before, named, accepts⟩

/-- The definition that a request has added is found in every later book. -/
theorem Accepts.find? {earlier later : List (Except Fault Call)} {final : Book}
    (accepts : service.Accepts book request definition type)
    (start : service.bookAfter? earlier = some book)
    (reached : service.bookAfter? (earlier ++ request :: later) = some final) :
    final.find? definition.name = some definition := by
  rw [← List.singleton_append, ← List.append_assoc] at reached
  obtain ⟨next, after, grown⟩ := extends_bookAfter? reached
  cases (accepts.bookAfter?_eq earlier start).symm.trans after
  refine Book.find?_of_extends grown ?_
  have fresh := (define_ok_iff.1 accepts.defines).1
  rw [Book.find?] at fresh ⊢
  rw [List.find?_append, fresh]
  simp

/-- Every name in the book of a service was defined by a request that was accepted. As long as the
names that were left in the expansion of the definition are not defined, checking the name succeeds
with the type that was found then. -/
theorem check_accepted (service : Service) {requests : List (Except Fault Call)} {final : Book}
    (reached : service.bookAfter? requests = some final) :
    (∀ name ∈ final.names, ∃ earlier request later book definition type,
      requests = earlier ++ request :: later ∧ service.bookAfter? earlier = some book ∧
        definition.name = name ∧ service.Accepts book request definition type) ∧
    ∀ earlier request later book definition type, requests = earlier ++ request :: later →
      service.bookAfter? earlier = some book → service.Accepts book request definition type →
      (∀ name ∈ book.openNames definition, final.find? name = none) →
      final.check (service.kernel final) false definition.name = .ok type := by
  refine ⟨fun name defined => exists_accepts reached defined, ?_⟩
  rintro earlier request later book definition type rfl start accepts undefined
  obtain ⟨book', start', grown⟩ := extends_bookAfter? reached
  cases start.symm.trans start'
  have typed := (define_ok_iff.1 accepts.defines).2.1
  rw [Book.check, accepts.find? start reached]
  dsimp only
  rw [mapError_eq_ok, Book.checkDefinition, mapError_eq_ok]
  exact Book.typeOf_extends grown service.arith service.fuel false typed undefined

/-- A request for a definition without an annotation. -/
def defineRequest (name source : String) : Except Fault Call :=
  .ok ⟨"define", some (.object [("name", .string name), ("source", .string source)])⟩

/-- Over `T = Type` the definition `f = [x : T] [y : foo] x` is accepted, with the unknown name
`foo` left in its expansion. It has the same type after another definition, since that one is not of
`foo`. -/
theorem check_accepted_open :
    let service : Service := {}
    ∃ final, service.bookAfter? [defineRequest "T" "Type", defineRequest "f" "[x : T] [y : foo] x",
        defineRequest "g" "[x : T] x"] = some final ∧
      final.check (service.kernel final) false "f" =
        .ok (.pi false "x" .univ (.pi false "y" (.ref "foo") .univ)) := by
  intro service
  let askT := defineRequest "T" "Type"
  let askF := defineRequest "f" "[x : T] [y : foo] x"
  let askG := defineRequest "g" "[x : T] x"
  let T : Definition := ⟨"T", none, .univ, ⟨"", 0, 0⟩⟩
  let f : Definition :=
    ⟨"f", none, .lam false "x" (.ref "T") (.lam false "y" (.ref "foo") (.var 1)), ⟨"", 0, 0⟩⟩
  let g : Definition := ⟨"g", none, .lam false "x" (.ref "T") (.var 0), ⟨"", 0, 0⟩⟩
  -- Book after book, so that no more than one definition is checked at a time.
  have acceptsT : service.Accepts .empty askT T .univ := ⟨rfl, rfl, rfl⟩
  have acceptsF : service.Accepts ⟨[T]⟩ askF f
      (.pi false "x" .univ (.pi false "y" (.ref "foo") .univ)) := ⟨rfl, rfl, by decide +kernel⟩
  have acceptsG : service.Accepts ⟨[T, f]⟩ askG g (.pi false "x" .univ .univ) :=
    ⟨rfl, rfl, by decide +kernel⟩
  have start : service.bookAfter? [] = some .empty := rfl
  have bookT : service.bookAfter? [askT] = some ⟨[T]⟩ := acceptsT.bookAfter?_eq [] start
  have bookF : service.bookAfter? [askT, askF] = some ⟨[T, f]⟩ := acceptsF.bookAfter?_eq [askT] bookT
  have final : service.bookAfter? [askT, askF, askG] = some ⟨[T, f, g]⟩ :=
    acceptsG.bookAfter?_eq [askT, askF] bookF
  refine ⟨_, final, ?_⟩
  refine (check_accepted service final).2 [askT] askF [askG] ⟨[T]⟩ f _ rfl bookT acceptsF ?_
  exact List.forall_mem_singleton.2 rfl

/-- The definition `a = [x : a] Type` is accepted, and then it is circular. The definition
`a = [x : b] Type` is accepted with the type `{x : b} Type`, and has the type `{x : Type} Type` once
`b` is defined. -/
theorem accepted_then_broken :
    let service : Service := {}
    let a (dom : String) : Definition := ⟨"a", none, .lam false "x" (.ref dom) .univ, ⟨"", 0, 0⟩⟩
    let reported : Term := .pi false "x" (.ref "b") .univ
    let later : Term := .pi false "x" .univ .univ
    ∃ circular changed,
      service.bookAfter? [defineRequest "a" "[x : a] Type"] = some circular ∧
      service.Accepts .empty (defineRequest "a" "[x : a] Type") (a "a")
        (.pi false "x" (.ref "a") .univ) ∧
      circular.check (service.kernel circular) false "a" =
        .error (.definition ⟨"a", ⟨"", 0, 0⟩, .cycle ["a", "a"]⟩) ∧
      service.bookAfter? [defineRequest "a" "[x : b] Type", defineRequest "b" "Type"] =
        some changed ∧
      service.Accepts .empty (defineRequest "a" "[x : b] Type") (a "b") reported ∧
      changed.check (service.kernel changed) false "a" = .ok later ∧
      reported.equal later = false := by
  intro service a reported later
  let b : Definition := ⟨"b", none, .univ, ⟨"", 0, 0⟩⟩
  have self : service.Accepts .empty (defineRequest "a" "[x : a] Type") (a "a")
      (.pi false "x" (.ref "a") .univ) := ⟨rfl, rfl, by decide +kernel⟩
  have first : service.Accepts .empty (defineRequest "a" "[x : b] Type") (a "b") reported :=
    ⟨rfl, rfl, by decide +kernel⟩
  have second : service.Accepts ⟨[a "b"]⟩ (defineRequest "b" "Type") b .univ := ⟨rfl, rfl, rfl⟩
  have start : service.bookAfter? [] = some .empty := rfl
  have firstBook : service.bookAfter? [defineRequest "a" "[x : b] Type"] = some ⟨[a "b"]⟩ :=
    first.bookAfter?_eq [] start
  exact ⟨⟨[a "a"]⟩, ⟨[a "b", b]⟩, self.bookAfter?_eq [] start, self, rfl,
    second.bookAfter?_eq [_] firstBook, first, rfl, rfl⟩

end BoxCalculus.Rpc.Service
