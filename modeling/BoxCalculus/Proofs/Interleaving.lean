import BoxCalculus.Proofs.AcceptedDefinitions
import Mathlib.Logic.Function.Basic

/-!
# Requests side by side

A service carries out requests side by side. Each has two phases: it reads its parameters, for which
it does not look at the book, and then it holds the book for itself until it is answered. A schedule
says whose phase comes next, again and again, so a list of requests with repetitions is an
interleaving. If a response cannot be written, the service breaks down, and nothing happens any more.

However the phases are interleaved, the requests are answered as if they had been carried out one
after the other, in the order in which they have held the book, and the book is the one that they
leave then (`serve_linearized`).
-/

namespace BoxCalculus.Rpc

/-- How far a request has come. -/
inductive Stage where
  /-- It has been delivered. -/
  | received
  /-- It has read its parameters and waits for the book. -/
  | ready (job : Job)
  | answered (response : Except Fault Value)

/-- Requests that are carried out side by side, and the book that they share. -/
structure Session (ι : Type) where
  book : Book
  stage : ι → Stage
  /-- The requests that have held the book and were answered, in this order. -/
  held : List ι
  /-- Has the service not broken down? -/
  running : Bool

/-- The requests have been delivered, and none of them has begun. -/
def Session.start {ι : Type} (book : Book) : Session ι :=
  ⟨book, fun _ => .received, [], true⟩

/-- Can the outcome be written? The message of a fault may be missing. -/
def isWritable {α : Type} : Except Fault α → Bool
  | .ok _ => true
  | .error fault => fault.message?.isSome

namespace Service

section Definitions

variable (service : Service) {ι : Type} [DecidableEq ι] (requests : ι → Except Fault Call)

/-- Run a job and write the response, if that can be done. -/
def respond? (book : Book) (job : Job) : Option (Book × Except Fault Value) := do
  let (book, outcome) ← service.run? book job
  guard (isWritable outcome)
  return (book, outcome.map Outcome.value)

/-- The next phase of a request. One whose parameters cannot be used is answered at once, and never
holds the book. -/
def advance (session : Session ι) (i : ι) : Session ι :=
  if session.running then
    match session.stage i with
    | .received =>
        match requests i >>= Job.prepare service.arith with
        | .error fault =>
            { session with stage := Function.update session.stage i (.answered (.error fault)) }
        | .ok job => { session with stage := Function.update session.stage i (.ready job) }
    | .ready job =>
        match service.respond? session.book job with
        | some (book, response) =>
            ⟨book, Function.update session.stage i (.answered response), session.held ++ [i], true⟩
        | none => { session with running := false }
    | .answered _ => session
  else session

/-- Carry out phases of requests as a schedule says. -/
def serve (book : Book) (schedule : List ι) : Session ι :=
  schedule.foldl (service.advance requests) (.start book)

/-- Carry out a request on its own, and write the response. -/
def exchange? (book : Book) (request : Except Fault Call) : Option (Book × Except Fault Value) :=
  match request >>= Job.prepare service.arith with
  | .error fault => some (book, .error fault)
  | .ok job => service.respond? book job

/-- Carry out requests one after the other. -/
def exchangeAll? (service : Service) (book : Book) :
    List (Except Fault Call) → Option (Book × List (Except Fault Value))
  | [] => some (book, [])
  | request :: rest => do
      let (book, response) ← service.exchange? book request
      let (book, responses) ← service.exchangeAll? book rest
      return (book, response :: responses)

/-- The definition for which a request has been answered with a result. -/
def defined? (request : Except Fault Call) (stage : Stage) : Option Definition :=
  match request >>= Job.prepare service.arith, stage with
  | .ok (.define definition), .answered (.ok _) => some definition
  | _, _ => none

/-- The definitions for which requests have been answered with a result, in the order of the
answers. -/
def successes (session : Session ι) : List Definition :=
  session.held.filterMap fun i => service.defined? (requests i) (session.stage i)

/-- What a phase of a request does to the book. -/
inductive Phase (i : ι) (before after : Session ι) : Prop
  /-- The book stays. If a definition was to be added to it, the answer is a fault. -/
  | unchanged : after.book = before.book →
      (∀ definition, before.running = true → before.stage i = .ready (.define definition) →
        ∃ fault, after.stage i = .answered (.error fault)) → Phase i before after
  /-- A type has been found for a definition. The definition is added to the book, and the answer is
  the type as it is written. -/
  | defined (definition type text) : before.stage i = .ready (.define definition) →
      before.book.find? definition.name = none → service.typeOf before.book definition = .ok type →
      type.print? = some text →
      after.book.definitions = before.book.definitions ++ [definition] →
      after.stage i = .answered (.ok (Outcome.defined definition.name text).value) →
      Phase i before after
  /-- The response cannot be written, and the service breaks down. -/
  | ended (job) : before.stage i = .ready job → service.respond? before.book job = none →
      after = { before with running := false } → Phase i before after

/-- `service.Linearized requests initial schedule session` says that the session, to which the
schedule has led, is one in which requests have been carried out one after the other, for all that can
be told. -/
structure Linearized (initial : Book) (schedule : List ι) (session : Session ι) : Prop where
  /-- The names of the book are those it began with and then those of the definitions that have been
  answered with a result. -/
  names : session.book.names =
    initial.names ++ (service.successes requests session).map Definition.name
  /-- No name is defined twice. -/
  distinct : initial.names.Nodup → session.book.names.Nodup
  /-- Only a request that succeeds in defining a name changes the book. -/
  phases : ∀ earlier i, earlier ++ [i] <+: schedule →
    service.Phase i (service.serve requests initial earlier)
      (service.serve requests initial (earlier ++ [i]))
  /-- What has been defined stays. -/
  kept : ∀ earlier, earlier <+: schedule →
    session.book.Extends (service.serve requests initial earlier).book
  /-- When the requests that have held the book are carried out one after the other, in this order,
  they leave the same book and are answered in the same way. -/
  replayed : ∃ responses,
    service.exchangeAll? initial (session.held.map requests) = some (session.book, responses) ∧
      session.held.map session.stage = responses.map Stage.answered
  /-- A request that has been answered without the book is answered so with any book. -/
  rejected : ∀ i response, session.stage i = .answered response → i ∉ session.held →
    ∀ book, service.exchange? book (requests i) = some (book, response)
  /-- No request holds the book twice. -/
  once : session.held.Nodup
  /-- A request that has had both its phases is answered, unless the service has broken down. -/
  progress : session.running = true →
    ∀ i, 2 ≤ schedule.count i → ∃ response, session.stage i = .answered response
  /-- It is answered once. -/
  final : ∀ earlier i response, earlier <+: schedule →
    (service.serve requests initial earlier).stage i = .answered response →
    session.stage i = .answered response
  /-- The service breaks down only when a response cannot be written. -/
  broken : session.running = false → ∃ earlier i job, earlier ++ [i] <+: schedule ∧
    (service.serve requests initial earlier).stage i = .ready job ∧
    service.respond? (service.serve requests initial earlier).book job = none

end Definitions

variable {service : Service} {ι : Type} {requests : ι → Except Fault Call} {session : Session ι}
  {book initial : Book}

/-! ## One after the other -/

/-- What a job that is answered can have done: nothing to the book, or it has added a definition. -/
theorem respond?_cases {job : Job} {after : Book} {response : Except Fault Value}
    (responded : service.respond? book job = some (after, response)) :
    (after = book ∧ ∀ definition, job = .define definition → ∃ fault, response = .error fault) ∨
    ∃ definition type text, job = .define definition ∧ book.find? definition.name = none ∧
      service.typeOf book definition = .ok type ∧ type.print? = some text ∧
      after = ⟨book.definitions ++ [definition]⟩ ∧
      response = .ok (Outcome.defined definition.name text).value := by
  simp only [respond?, bind, Option.bind_eq_some_iff, guard, pure, Option.some.injEq,
    Prod.mk.injEq] at responded
  obtain ⟨⟨after', outcome⟩, ran, -, -, rfl, rfl⟩ := responded
  by_cases defines : ∃ definition, job = .define definition
  · obtain ⟨definition, rfl⟩ := defines
    rw [run?] at ran
    cases defined : service.define book definition with
    | error fault =>
        rw [defined] at ran
        cases ran
        exact .inl ⟨rfl, fun _ _ => ⟨fault, rfl⟩⟩
    | ok out =>
        obtain ⟨extended, type⟩ := out
        rw [defined] at ran
        obtain ⟨text, written, same⟩ := Option.map_eq_some_iff.1 ran
        cases same
        obtain ⟨fresh, typed, rfl⟩ := define_ok_iff.1 defined
        have found : service.typeOf book definition = .ok type := by
          rw [typeOf, mapError_eq_ok, Book.checkDefinition, mapError_eq_ok]
          exact typed
        exact .inr ⟨definition, type, text, rfl, fresh, found, written, rfl, rfl⟩
  · refine .inl ⟨run?_fst (fun definition same => defines ⟨definition, same⟩) ran, ?_⟩
    exact fun definition same => absurd ⟨definition, same⟩ defines

/-- The book after a job that is answered: it is as it was, with the definition for which the answer
is a result. -/
theorem definitions_respond? {request : Except Fault Call} {job : Job} {after : Book}
    {response : Except Fault Value} (asked : request >>= Job.prepare service.arith = .ok job)
    (responded : service.respond? book job = some (after, response)) :
    after.definitions =
      book.definitions ++ (service.defined? request (.answered response)).toList := by
  rcases respond?_cases responded with
    ⟨rfl, faults⟩ | ⟨definition, type, text, rfl, -, -, -, rfl, rfl⟩
  · cases job with
    | define definition =>
        obtain ⟨fault, rfl⟩ := faults definition rfl
        simp [defined?, asked]
    | reduce | typing | names => simp [defined?, asked]
  · simp [defined?, asked]

/-- Requests are carried out one after the other up to the last one, and then that one. -/
theorem exchangeAll?_append_singleton {earlier : List (Except Fault Call)}
    {request : Except Fault Call} {before after : Book} {responses : List (Except Fault Value)}
    {response : Except Fault Value}
    (first : service.exchangeAll? book earlier = some (before, responses))
    (last : service.exchange? before request = some (after, response)) :
    service.exchangeAll? book (earlier ++ [request]) = some (after, responses ++ [response]) := by
  induction earlier generalizing book responses with
  | nil =>
      cases first
      simp [exchangeAll?, last]
  | cons request' rest ih =>
      simp only [exchangeAll?, bind, Option.bind_eq_some_iff, pure, Option.some.injEq,
        Prod.mk.injEq] at first
      obtain ⟨⟨next, response'⟩, started, ⟨⟨before', responses'⟩, went, rfl, rfl⟩⟩ := first
      simp [exchangeAll?, started, ih went]

/-! ## One phase -/

/-- A phase only adds to the book. -/
theorem Phase.extends {i : ι} {before after : Session ι} (phase : service.Phase i before after) :
    after.book.Extends before.book := by
  cases phase with
  | unchanged same => exact ⟨[], by rw [same, List.append_nil]⟩
  | defined definition type text _ _ _ _ added => exact ⟨[definition], added.symm⟩
  | ended job _ _ same => exact ⟨[], by rw [same, List.append_nil]⟩

/-- A name that is in the book does not come in again. -/
theorem Phase.nodup {i : ι} {before after : Session ι} (phase : service.Phase i before after)
    (nodup : before.book.names.Nodup) : after.book.names.Nodup := by
  cases phase with
  | unchanged same => rwa [same]
  | ended job _ _ same => rwa [same]
  | defined definition type text _ fresh _ _ added =>
      rw [Book.find?, List.find?_eq_none] at fresh
      rw [Book.names, added, List.map_append, List.nodup_append]
      refine ⟨nodup, List.pairwise_singleton _ _, ?_⟩
      intro name inBook other new same
      obtain ⟨earlier, mem, rfl⟩ := List.mem_map.1 inBook
      rw [List.map_singleton, List.mem_singleton] at new
      exact fresh earlier mem (by rw [same, new, decide_eq_true rfl])

variable [DecidableEq ι]

/-- What the next phase of a request can be. -/
inductive Advances (service : Service) (requests : ι → Except Fault Call) (session : Session ι)
    (i : ι) : Session ι → Prop
  | stopped : session.running = false → Advances service requests session i session
  | rejected (fault) : session.running = true → session.stage i = .received →
      requests i >>= Job.prepare service.arith = .error fault →
      Advances service requests session i
        { session with stage := Function.update session.stage i (.answered (.error fault)) }
  | prepared (job) : session.running = true → session.stage i = .received →
      requests i >>= Job.prepare service.arith = .ok job →
      Advances service requests session i
        { session with stage := Function.update session.stage i (.ready job) }
  | held (job book response) : session.running = true → session.stage i = .ready job →
      service.respond? session.book job = some (book, response) →
      Advances service requests session i
        ⟨book, Function.update session.stage i (.answered response), session.held ++ [i], true⟩
  | ended (job) : session.running = true → session.stage i = .ready job →
      service.respond? session.book job = none →
      Advances service requests session i { session with running := false }
  | answered (response) : session.running = true → session.stage i = .answered response →
      Advances service requests session i session

/-- The next phase is one of these. -/
theorem advances (service : Service) (requests : ι → Except Fault Call) (session : Session ι)
    (i : ι) : service.Advances requests session i (service.advance requests session i) := by
  rw [advance]
  split
  · rename_i running
    cases waits : session.stage i with
    | received =>
        cases asked : requests i >>= Job.prepare service.arith with
        | error fault => exact .rejected fault running waits asked
        | ok job => exact .prepared job running waits asked
    | ready job =>
        dsimp only
        cases responded : service.respond? session.book job with
        | none => exact .ended job running waits responded
        | some out => exact .held job out.1 out.2 running waits responded
    | answered response => exact .answered response running waits
  · rename_i stopped
    exact .stopped (Bool.eq_false_iff.2 stopped)

/-- A phase leaves the book as it is or adds a definition to it. -/
theorem phase_advance (session : Session ι) (i : ι) :
    service.Phase i session (service.advance requests session i) := by
  have step := service.advances requests session i
  generalize service.advance requests session i = after at step ⊢
  have other {stage : Stage} (at_stage : session.stage i = stage)
      (apart : ∀ job, stage ≠ .ready job) (definition : Definition) (_ : session.running = true)
      (waits : session.stage i = .ready (.define definition)) :
      ∃ fault, after.stage i = .answered (.error fault) :=
    absurd (at_stage.symm.trans waits) (apart _)
  cases step with
  | stopped stopped =>
      refine .unchanged rfl fun _ running => ?_
      rw [stopped] at running
      cases running
  | rejected fault _ waits => exact .unchanged rfl (other waits (by simp))
  | prepared job _ waits => exact .unchanged rfl (other waits (by simp))
  | answered response _ waits => exact .unchanged rfl (other waits (by simp))
  | ended job _ waits broken => exact .ended job waits broken rfl
  | held job book response _ waits responded =>
      rcases respond?_cases responded with
        ⟨rfl, faults⟩ | ⟨definition, type, text, rfl, fresh, found, written, rfl, rfl⟩
      · refine .unchanged rfl fun definition _ defines => ?_
        obtain ⟨fault, rfl⟩ := faults definition (Stage.ready.inj (waits.symm.trans defines))
        exact ⟨fault, Function.update_self ..⟩
      · exact .defined definition type text waits fresh found written rfl (Function.update_self ..)

/-- An answer is not taken back. -/
theorem answered_advance {i j : ι} {response : Except Fault Value}
    (answered : session.stage j = .answered response) :
    (service.advance requests session i).stage j = .answered response := by
  have other {stage : Stage} (moves : ∀ response, session.stage i ≠ .answered response) :
      Function.update session.stage i stage j = .answered response := by
    have apart : j ≠ i := by
      rintro rfl
      exact moves response answered
    rw [Function.update_of_ne apart, answered]
  have step := service.advances requests session i
  generalize service.advance requests session i = after at step ⊢
  cases step with
  | stopped | ended | answered => exact answered
  | rejected fault _ waits => exact other (by simp [waits])
  | prepared job _ waits => exact other (by simp [waits])
  | held job book response _ waits => exact other (by simp [waits])

/-- A service that has broken down does not run again. -/
theorem running_of_advance {i : ι}
    (running : (service.advance requests session i).running = true) : session.running = true := by
  have step := service.advances requests session i
  generalize service.advance requests session i = after at step running
  cases step with
  | stopped stopped => exact running
  | ended => cases running
  | rejected _ went | prepared _ went | held _ _ _ went | answered _ went => exact went

/-! ## Whole schedules -/

/-- What is known of a request that has not been answered with the book. -/
inductive Outside (service : Service) (request : Except Fault Call) : Stage → Prop
  | received : Outside service request .received
  | ready (job) : request >>= Job.prepare service.arith = .ok job →
      Outside service request (.ready job)
  | rejected (fault) : request >>= Job.prepare service.arith = .error fault →
      Outside service request (.answered (.error fault))

/-- What phases preserve: the book and the answers are those of the requests that have held the
book, one after the other. -/
structure Traced (service : Service) (requests : ι → Except Fault Call) (initial : Book)
    (session : Session ι) : Prop where
  definitions : session.book.definitions =
    initial.definitions ++ service.successes requests session
  replayed : ∃ responses,
    service.exchangeAll? initial (session.held.map requests) = some (session.book, responses) ∧
      session.held.map session.stage = responses.map Stage.answered
  once : session.held.Nodup
  outside : ∀ i ∉ session.held, Outside service (requests i) (session.stage i)

omit [DecidableEq ι] in
/-- A request that has held the book is answered. -/
theorem Traced.answered_of_held (traced : Traced service requests initial session) {i : ι}
    (held : i ∈ session.held) : ∃ response, session.stage i = .answered response := by
  obtain ⟨responses, -, answers⟩ := traced.replayed
  have mem : session.stage i ∈ session.held.map session.stage := List.mem_map_of_mem held
  rw [answers] at mem
  obtain ⟨response, -, eq⟩ := List.mem_map.1 mem
  exact ⟨response, eq.symm⟩

/-- What is known of the other requests when one that has not held the book comes to a stage. -/
theorem Traced.outside_update (traced : Traced service requests initial session) {i j : ι}
    {stage : Stage} (other : j ∉ session.held) (apart : j ≠ i) :
    Outside service (requests j) (Function.update session.stage i stage j) := by
  rw [Function.update_of_ne apart]
  exact traced.outside j other

/-- A phase that does not need the book. -/
theorem Traced.update (traced : Traced service requests initial session) {i : ι} {stage : Stage}
    (free : i ∉ session.held) (outside : Outside service (requests i) stage) :
    Traced service requests initial
      { session with stage := Function.update session.stage i stage } := by
  have same : ∀ j ∈ session.held, Function.update session.stage i stage j = session.stage j :=
    fun j held => Function.update_of_ne (ne_of_mem_of_not_mem held free) ..
  constructor
  · rw [traced.definitions, successes, successes]
    congr 1
    refine List.filterMap_congr fun j held => ?_
    dsimp only
    rw [same j held]
  · obtain ⟨responses, replayed, answers⟩ := traced.replayed
    exact ⟨responses, replayed, (List.map_congr_left same).trans answers⟩
  · exact traced.once
  · intro j other
    by_cases here : j = i
    · subst here
      dsimp only
      rw [Function.update_self]
      exact outside
    · exact traced.outside_update other here

/-- The phase of a request that holds the book. -/
theorem Traced.hold (traced : Traced service requests initial session) {i : ι} {job : Job}
    {after : Book} {response : Except Fault Value} (free : i ∉ session.held)
    (asked : requests i >>= Job.prepare service.arith = .ok job)
    (responded : service.respond? session.book job = some (after, response)) :
    Traced service requests initial
      ⟨after, Function.update session.stage i (.answered response), session.held ++ [i], true⟩ := by
  have same : ∀ j ∈ session.held,
      Function.update session.stage i (.answered response) j = session.stage j :=
    fun j held => Function.update_of_ne (ne_of_mem_of_not_mem held free) ..
  constructor
  · rw [definitions_respond? asked responded, traced.definitions, successes, successes,
      List.filterMap_append, List.append_assoc]
    congr 1
    congr 1
    · refine List.filterMap_congr fun j held => ?_
      dsimp only
      rw [same j held]
    · cases defined : service.defined? (requests i) (.answered response) with
      | none => simp [defined]
      | some definition => simp [defined]
  · obtain ⟨responses, replayed, answers⟩ := traced.replayed
    have last : service.exchange? session.book (requests i) = some (after, response) := by
      rw [exchange?, asked]
      exact responded
    refine ⟨responses ++ [response], ?_, ?_⟩
    · rw [List.map_append]
      exact exchangeAll?_append_singleton replayed last
    · rw [List.map_append, List.map_congr_left same, answers]
      simp
  · refine List.nodup_append.2 ⟨traced.once, List.pairwise_singleton _ _, ?_⟩
    intro j held last same
    rw [List.mem_singleton.1 same]
    exact ne_of_mem_of_not_mem held free
  · intro j other
    have apart : j ∉ session.held ∧ j ≠ i := by simpa using other
    exact traced.outside_update apart.1 apart.2

/-- What phases preserve, one phase on. -/
theorem Traced.advance (traced : Traced service requests initial session) (i : ι) :
    Traced service requests initial (service.advance requests session i) := by
  -- A request whose phase is to come has not held the book: those that have are answered.
  have free (waits : ∀ response, session.stage i ≠ .answered response) : i ∉ session.held := by
    intro held
    obtain ⟨response, answered⟩ := traced.answered_of_held held
    exact waits response answered
  have step := service.advances requests session i
  generalize service.advance requests session i = after at step ⊢
  cases step with
  | stopped | answered => exact traced
  | ended => exact ⟨traced.definitions, traced.replayed, traced.once, traced.outside⟩
  | rejected fault _ waits asked => exact traced.update (free (by simp [waits])) (.rejected fault asked)
  | prepared job _ waits asked => exact traced.update (free (by simp [waits])) (.ready job asked)
  | held job book response _ waits responded =>
      have unheld := free (by simp [waits])
      have outside := traced.outside i unheld
      rw [waits] at outside
      cases outside with
      | ready _ asked => exact traced.hold unheld asked responded

/-- The last phase of a schedule comes after the others. -/
theorem serve_append_singleton (earlier : List ι) (i : ι) :
    service.serve requests initial (earlier ++ [i]) =
      service.advance requests (service.serve requests initial earlier) i := by
  rw [serve, List.foldl_append]
  rfl

/-- What phases preserve holds after every schedule. -/
theorem traced_serve (service : Service) (requests : ι → Except Fault Call) (initial : Book)
    (schedule : List ι) :
    Traced service requests initial (service.serve requests initial schedule) := by
  induction schedule using List.reverseRecOn with
  | nil => exact ⟨(List.append_nil _).symm, ⟨[], rfl, rfl⟩, List.nodup_nil, fun _ _ => .received⟩
  | append_singleton earlier i ih =>
      rw [serve_append_singleton]
      exact ih.advance i

/-- What has been defined and what has been answered stays, whatever is carried out later. -/
theorem kept_serve (initial : Book) (earlier later : List ι) :
    (service.serve requests initial (earlier ++ later)).book.Extends
        (service.serve requests initial earlier).book ∧
      ∀ i response, (service.serve requests initial earlier).stage i = .answered response →
        (service.serve requests initial (earlier ++ later)).stage i = .answered response := by
  induction later using List.reverseRecOn with
  | nil =>
      rw [List.append_nil]
      exact ⟨List.prefix_rfl, fun _ _ answered => answered⟩
  | append_singleton later j ih =>
      obtain ⟨longer, answers⟩ := ih
      rw [← List.append_assoc, serve_append_singleton]
      refine ⟨longer.trans (phase_advance _ j).extends, ?_⟩
      intro i response answered
      exact answered_advance (answers i response answered)

/-- Names stay distinct. -/
theorem nodup_serve (nodup : initial.names.Nodup) (schedule : List ι) :
    (service.serve requests initial schedule).book.names.Nodup := by
  induction schedule using List.reverseRecOn with
  | nil => exact nodup
  | append_singleton earlier i ih =>
      rw [serve_append_singleton]
      exact (phase_advance _ i).nodup ih

/-- A request that has had a phase of a running service is not where it was before. -/
theorem begun_serve {schedule : List ι} {i : ι} (begun : i ∈ schedule)
    (running : (service.serve requests initial schedule).running = true) :
    (service.serve requests initial schedule).stage i ≠ .received := by
  induction schedule using List.reverseRecOn with
  | nil => cases begun
  | append_singleton earlier j ih =>
      rw [serve_append_singleton] at running ⊢
      have before (early : i ∈ earlier) := ih early (running_of_advance running)
      generalize service.serve requests initial earlier = session at before running ⊢
      have step := service.advances requests session j
      generalize service.advance requests session j = after at step running ⊢
      by_cases same : i = j
      · subst same
        cases step with
        | stopped stopped => rw [stopped] at running; cases running
        | ended => cases running
        | rejected | prepared | held => simp
        | answered response _ waits => simp [waits]
      · have moved := before (by simpa [same] using begun)
        cases step with
        | stopped | ended | answered => exact moved
        | rejected | prepared | held => simpa [Function.update_of_ne same] using moved

/-- A request that has had two phases of a running service is answered. -/
theorem answered_serve {schedule : List ι} {i : ι}
    (running : (service.serve requests initial schedule).running = true)
    (both : 2 ≤ schedule.count i) :
    ∃ response, (service.serve requests initial schedule).stage i = .answered response := by
  induction schedule using List.reverseRecOn with
  | nil => cases both
  | append_singleton earlier j ih =>
      rw [serve_append_singleton] at running ⊢
      have before := running_of_advance running
      by_cases done : 2 ≤ earlier.count i
      · obtain ⟨response, answered⟩ := ih before done
        exact ⟨response, answered_advance answered⟩
      · -- The last phase is the second one of this request.
        rw [List.count_append, List.count_singleton] at both
        have last : i = j ∧ i ∈ earlier := by
          by_cases same : j = i
          · subst same
            rw [beq_self_eq_true, if_pos rfl] at both
            exact ⟨rfl, List.count_pos_iff.1 (by omega)⟩
          · rw [beq_false_of_ne same] at both
            exact absurd both (by simpa using done)
        obtain ⟨rfl, begun⟩ := last
        have moved := begun_serve begun before
        generalize service.serve requests initial earlier = session at moved running ⊢
        have step := service.advances requests session i
        generalize service.advance requests session i = after at step running ⊢
        cases step with
        | stopped stopped => rw [stopped] at running; cases running
        | ended => cases running
        | rejected fault _ waits => exact absurd waits moved
        | prepared job _ waits => exact absurd waits moved
        | held job book response => exact ⟨response, Function.update_self ..⟩
        | answered response _ waits => exact ⟨response, waits⟩

/-- If the service has broken down, then at a response that could not be written. -/
theorem broken_serve {schedule : List ι}
    (stopped : (service.serve requests initial schedule).running = false) :
    ∃ earlier i job, earlier ++ [i] <+: schedule ∧
      (service.serve requests initial earlier).stage i = .ready job ∧
      service.respond? (service.serve requests initial earlier).book job = none := by
  induction schedule using List.reverseRecOn with
  | nil => cases stopped
  | append_singleton earlier i ih =>
      cases went : (service.serve requests initial earlier).running with
      | false =>
          obtain ⟨first, j, job, before, broke⟩ := ih went
          exact ⟨first, j, job, before.trans (List.prefix_append _ _), broke⟩
      | true =>
          refine ⟨earlier, i, ?_⟩
          rw [serve_append_singleton] at stopped
          generalize service.serve requests initial earlier = session at went stopped ⊢
          have step := service.advances requests session i
          generalize service.advance requests session i = after at step stopped
          cases step with
          | ended job _ waits broken => exact ⟨job, List.prefix_rfl, waits, broken⟩
          | held => cases stopped
          | stopped | rejected | prepared | answered =>
              exact absurd (went.symm.trans stopped) (by decide)

-- The definition is accepted, but an index in its type has wrapped around and cannot be written.
example : (({} : Service).exchange? .empty (.ok ⟨"define", some (.object [("name", .string "n"),
    ("type", .string "\x7bx : data D : Type \x7b mk : [y] #9223372036854775807 \x7d\x7d Type"),
    ("source", .string "[x] Type")])⟩)).isNone = true := by
  decide +kernel

/-- Requests that are carried out side by side are carried out one after the other, for all that can
be told: whatever the schedule, the answers and the book are those of the requests in the order in which
they have held the book, and only a definition that is accepted changes it. -/
theorem serve_linearized (service : Service) (requests : ι → Except Fault Call) (initial : Book)
    (schedule : List ι) : service.Linearized requests initial schedule
      (service.serve requests initial schedule) := by
  have traced := service.traced_serve requests initial schedule
  constructor
  · rw [Book.names, traced.definitions, List.map_append]
    rfl
  · intro nodup
    exact nodup_serve nodup schedule
  · intro earlier i _
    rw [serve_append_singleton]
    exact phase_advance _ i
  · rintro earlier ⟨later, rfl⟩
    exact (kept_serve initial earlier later).1
  · exact traced.replayed
  · intro i response answered unheld book
    have outside := traced.outside i unheld
    rw [answered] at outside
    cases outside with
    | rejected fault asked => rw [exchange?, asked]
  · exact traced.once
  · intro running i both
    exact answered_serve running both
  · rintro earlier i response ⟨later, rfl⟩ answered
    exact (kept_serve initial earlier later).2 i response answered
  · intro stopped
    exact broken_serve stopped

/-- Two definitions of one name, a listing of the names, and a definition of a keyword. -/
def racingRequests : Fin 4 → Except Fault Call :=
  [defineRequest "a" "Type", defineRequest "a" "[x : Type] x", .ok ⟨"names", none⟩,
    defineRequest "let" "Type"].get

/-- The first definition begins before the second and comes to the book after it. The name is defined
once. -/
theorem serve_linearized_race :
    let session := ({} : Service).serve racingRequests .empty [0, 1, 3, 1, 2, 0, 2]
    session.held = [1, 0, 2] ∧ session.book.names = ["a"] ∧ session.book.names.Nodup ∧
      ∃ response, session.stage 0 = .answered response := by
  have linearized := serve_linearized {} racingRequests .empty [0, 1, 3, 1, 2, 0, 2]
  have held : (({} : Service).serve racingRequests .empty [0, 1, 3, 1, 2, 0, 2]).held = [1, 0, 2] ∧
      (({} : Service).serve racingRequests .empty [0, 1, 3, 1, 2, 0, 2]).running = true := by
    decide +kernel
  have names := linearized.names
  have added : (({} : Service).successes racingRequests
      (({} : Service).serve racingRequests .empty [0, 1, 3, 1, 2, 0, 2])).map
      Definition.name = ["a"] := by decide +kernel
  rw [added] at names
  exact ⟨held.1, names, linearized.distinct List.nodup_nil, linearized.progress held.2 0 (by decide)⟩

end Service

end BoxCalculus.Rpc
