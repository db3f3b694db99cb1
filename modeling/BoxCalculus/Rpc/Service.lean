import BoxCalculus.Book.Checking
import BoxCalculus.Rpc.Message
import BoxCalculus.Term.Erasure
import BoxCalculus.Text.Fold

/-!
# The service

A service keeps a book and offers to define names, to reduce, infer and check terms, and to list the
names. A call has two phases. The first reads the parameters into a `Job` and does not look at the
book. The second runs the job on the book as one step.

A term with a negative index cannot be written. A service that comes to write one breaks down: there
is no answer, and no further call is carried out.
-/

namespace BoxCalculus.Rpc

/-! ## Parameters -/

/-- The values of the members with a name, in order. The case of letters does not matter, and `null`
counts as no value. -/
def given (members : List (String × Value)) (name : String) : List Value :=
  members.filterMap fun (other, value) =>
    match value with
    | .null => none
    | value => if Text.alike name other then some value else none

/-- A parameter that is a text. It is empty if it is missing, and the last one counts. -/
def textParam? (members : List (String × Value)) (name : String) : Option String :=
  (given members name).foldlM (fun _ value =>
    match value with
    | .string written => Value.unescape? written
    | _ => none) ""

/-- A parameter that is a truth value. It is false if it is missing, and the last one counts. -/
def flagParam? (members : List (String × Value)) (name : String) : Option Bool :=
  (given members name).foldlM (fun _ value =>
    match value with
    | .boolean flag => some flag
    | _ => none) false

/-- Read parameters, which have to be an object. -/
def readParams (params? : Option Value) (read? : List (String × Value) → Option α) :
    Except Fault α :=
  match params? with
  | none => .error (.invalidParams "missing parameters")
  | some (.object members) =>
      match read? members with
      | some params => .ok params
      | none => .error (.invalidParams "invalid parameters")
  | some _ => .error (.invalidParams "invalid parameters")

/-! ## Jobs -/

/-- What is to be done with the book. -/
inductive Job where
  | define (definition : Definition)
  | reduce (t : Term) (erase : Bool)
  /-- Check a definition without adding it. -/
  | typing (definition : Definition)
  | names

/-- The result of a job. -/
inductive Outcome where
  | defined (name type : String)
  | term (text : String)
  | typed (text : String)
  | names (names : List String)

/-- An outcome as a value. A book without names is listed as `null`. -/
def Outcome.value : Outcome → Value
  | defined name type => .object [("name", .ofText name), ("type", .ofText type)]
  | term text => .object [("term", .ofText text)]
  | typed text => .object [("type", .ofText text)]
  | names [] => .null
  | names listed => .array (listed.map Value.ofText)

namespace Job

/-- Parse a parameter. -/
def parseParam (ar : Arith) (file source : String) : Except Fault Term :=
  (parseTerm ar file source).mapError fun e => .invalidParams e.message

/-- The definition that stands for a term that a client asks about. -/
def anonymous (type? : Option Term) (t : Term) : Definition :=
  ⟨"it", type?, t, ⟨"", 0, 0⟩⟩

/-- Read the parameters of a definition. -/
def prepareDefine (ar : Arith) (params? : Option Value) : Except Fault Job := do
  let (name, type, source) ← readParams params? fun members => do
    return (← textParam? members "name", ← textParam? members "type",
      ← textParam? members "source")
  if !isName name then throw (.invalidParams ("invalid name " ++ Text.quoted name))
  let t ← parseParam ar name source
  let type? ← if type = "" then pure none else some <$> parseParam ar name type
  pure (.define ⟨name, type?, t, ⟨"", 0, 0⟩⟩)

/-- Read a term and whether it is to be erased. -/
def prepareTerm (ar : Arith) (params? : Option Value) : Except Fault (Term × Bool) := do
  let (source, erase) ← readParams params? fun members => do
    return (← textParam? members "source", ← flagParam? members "erase")
  return (← parseParam ar "" source, erase)

/-- Read a term and a type. -/
def prepareCheck (ar : Arith) (params? : Option Value) : Except Fault Job := do
  let (source, type) ← readParams params? fun members => do
    return (← textParam? members "source", ← textParam? members "type")
  let t ← parseParam ar "" source
  let type ← parseParam ar "" type
  pure (.typing (anonymous (some type) t))

/-- The job that a call asks for. -/
def prepare (ar : Arith) (call : Call) : Except Fault Job :=
  match call.method with
  | "define" => prepareDefine ar call.params?
  | "reduce" => (prepareTerm ar call.params?).map fun (t, erase) => .reduce t erase
  | "infer" => (prepareTerm ar call.params?).map fun (t, _) => .typing (anonymous none t)
  | "check" => prepareCheck ar call.params?
  | "names" => .ok .names
  | _ => .error .methodNotFound

end Job

/-! ## Running jobs -/

/-- What calls of a service have in common. -/
structure Service where
  arith : Arith := Arith.word
  /-- The bound on the steps of each reduction and check. There is none if it is not positive. -/
  fuel : Int := 0

namespace Service

/-- The kernel over a book. -/
def kernel (service : Service) (book : Book) : Kernel :=
  { arith := service.arith, env := book.lookup, fuel := service.fuel }

/-- The type of a definition over a book. -/
def typeOf (service : Service) (book : Book) (definition : Definition) : Except Fault Term :=
  (book.checkDefinition (service.kernel book) false definition).mapError fun e =>
    .failed e.message?

/-- Check a definition and add it to the book. -/
def define (service : Service) (book : Book) (definition : Definition) :
    Except Fault (Book × Term) := do
  if (book.find? definition.name).isSome then
    throw (.invalidParams (Text.quoted definition.name ++ " is already defined"))
  let type ← service.typeOf book definition
  let extended ← (book.define definition).mapError fun clash =>
    Fault.failed (some clash.message)
  pure (extended, type)

/-- The normal form of a term over a book, unless it is to be erased and cannot be. -/
def reduce? (service : Service) (book : Book) (t : Term) (erase : Bool) :
    Option (Except Fault Term) :=
  match (service.kernel book).normalize false t with
  | (_, some failure) => some (.error (.failed failure.message?))
  | (nf, none) => if erase then (nf.erase? service.arith).map .ok else some (.ok nf)

/-- Write down a term that has been found. -/
def report? (found : Except Fault Term) (outcome : String → Outcome) :
    Option (Except Fault Outcome) :=
  match found with
  | .error fault => some (.error fault)
  | .ok t => t.print?.map fun text => .ok (outcome text)

/-- Run a job on a book. Only a definition that is accepted changes the book. There is no result if
the service breaks down. -/
def run? (service : Service) (book : Book) : Job → Option (Book × Except Fault Outcome)
  | .define definition =>
      match service.define book definition with
      | .error fault => some (book, .error fault)
      | .ok (extended, type) =>
          type.print?.map fun text => (extended, .ok (.defined definition.name text))
  | .reduce t erase => do
      let found ← service.reduce? book t erase
      return (book, ← report? found .term)
  | .typing definition => do
      return (book, ← report? (service.typeOf book definition) .typed)
  | .names => some (book, .ok (.names book.names))

/-- Carry out a call. -/
def call? (service : Service) (book : Book) (request : Except Fault Call) :
    Option (Book × Except Fault Value) :=
  match request >>= Job.prepare service.arith with
  | .error fault => some (book, .error fault)
  | .ok job =>
      (service.run? book job).map fun (book, outcome) => (book, outcome.map Outcome.value)

end Service

end BoxCalculus.Rpc
