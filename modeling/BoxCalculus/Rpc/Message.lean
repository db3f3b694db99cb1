import BoxCalculus.Rpc.Value
import BoxCalculus.Text.Fold

/-!
# Messages

A client sends calls, alone or in batches. The response to a call carries the call's identifier; a
call without one is a notification, to which there is no response. The server asks nothing of its
clients, so a message that looks like a response is a call that went wrong.
-/

namespace BoxCalculus.Rpc

/-- Why a call has no result. -/
structure Fault where
  code : Int
  /-- The message, unless a term in it cannot be written. -/
  message? : Option String

namespace Fault

/-- A text that is no message. -/
def unreadable (message : String) : Fault := ⟨-32700, some message⟩

/-- A message that is no call. -/
def invalidRequest (message : String) : Fault := ⟨-32600, some message⟩

/-- A call of an unknown method. -/
def methodNotFound : Fault := ⟨-32601, some "method not found"⟩

/-- Parameters that cannot be used. -/
def invalidParams (message : String) : Fault := ⟨-32602, some message⟩

/-- A call that was carried out and failed. -/
def failed (message? : Option String) : Fault := ⟨-32098, message?⟩

/-- Is the fault reported even if there is no identifier? -/
def isReported (fault : Fault) : Bool :=
  fault.code == -32700 || fault.code == -32600

end Fault

/-- A call. -/
structure Call where
  method : String
  params? : Option Value

/-- A message from a client. -/
structure Message where
  /-- The identifier as it was written. -/
  id? : Option Value
  /-- The call, or what is wrong with it. -/
  call : Except Fault Call

namespace Message

/-- The latest member of an object with a name. -/
def member? (members : List (String × Value)) (name : String) : Option Value :=
  members.reverse.lookup name

/-- The names of the members that a message can have. -/
def memberNames : List String :=
  ["jsonrpc", "id", "method", "params", "error", "result"]

/-- The identifier of a message. A missing identifier and `null` mean the same. -/
def readId (members : List (String × Value)) : Except Fault (Option Value) :=
  match member? members "id" with
  | none | some .null => .ok none
  | some (.string written) => .ok (some (.string written))
  | some (.number written) => .ok (some (.number written))
  | some _ => .error (.invalidRequest "invalid request ID")

/-- The text of a member, which is empty if it is missing or `null`. -/
def readText (members : List (String × Value)) (name problem : String) : Except Fault String :=
  match member? members name with
  | none | some .null => .ok ""
  | some (.string written) => .ok ((Value.unescape? written).getD "")
  | some _ => .error (.unreadable problem)

/-- The parameters of a call, which are an array or an object. -/
def readParams (members : List (String × Value)) : Except Fault (Option Value) :=
  match member? members "params" with
  | none | some .null => .ok none
  | some (.array items) => .ok (some (.array items))
  | some (.object params) => .ok (some (.object params))
  | some _ => .error (.invalidRequest "parameters must be array or object")

/-- Is the number an integer of 32 bits? -/
def isCode (written : String) : Bool :=
  let (digits, bound) := match written.toList with
    | '-' :: digits => (digits, 0x8000_0000)
    | digits => (digits, 0x7fff_ffff)
  digits.all Char.isDigit && digits.foldl (fun n c => 10 * n + (c.toNat - '0'.toNat)) 0 ≤ bound

/-- Can the value be the member of an error with this name? -/
def isErrorMember (name : String) : Value → Bool
  | .null => true
  | .number written => !Text.alike "message" name && (!Text.alike "code" name || isCode written)
  | .string _ => !Text.alike "code" name
  | _ => !Text.alike "code" name && !Text.alike "message" name

/-- Does the message have an error? -/
def readError (members : List (String × Value)) : Except Fault Bool :=
  match member? members "error" with
  | none | some .null => .ok false
  | some (.object parts) =>
      if parts.all fun (name, value) => isErrorMember name value then .ok true
      else .error (.unreadable "invalid error value")
  | some _ => .error (.unreadable "invalid error value")

/-- The call of a message. -/
def readCall (members : List (String × Value)) : Except Fault Call := do
  let version ← readText members "jsonrpc" "invalid version key"
  let _ ← readId members
  let method ← readText members "method" "invalid method name"
  let params? ← readParams members
  let hasError ← readError members
  if version ≠ "2.0" then throw (.invalidRequest "invalid version marker")
  if method ≠ "" ∧ (hasError ∨ (member? members "result").isSome) then
    throw (.invalidRequest "mixed request and reply fields")
  if members.any fun (name, _) => !memberNames.contains name then
    throw (.invalidRequest "extra fields in request")
  if method = "" then throw (.invalidRequest "empty method name")
  pure ⟨method, params?⟩

/-- Read a message. -/
def ofValue : Value → Message
  | .object members => ⟨((readId members).toOption).join, readCall members⟩
  | .null => ⟨none, readCall []⟩
  | _ => ⟨none, .error (.unreadable "request is not a JSON object")⟩

/-- Write the response to a message with an outcome, if that can be done. There is none to a
notification, unless it could not be read. -/
def respond? (message : Message) (outcome : Except Fault Value) : Option (Option Value) :=
  let about (id : Value) (detail : String × Value) : Value :=
    .object [("jsonrpc", .ofText "2.0"), ("id", id), detail]
  match message.id?, outcome with
  | some id, .ok result => some (some (about id ("result", result)))
  | none, .ok _ => some none
  | id?, .error fault =>
      if id?.isSome || fault.isReported then
        fault.message?.map fun text => some (about (id?.getD .null) ("error",
          .object [("code", .number (toString fault.code)), ("message", .ofText text)]))
      else some none

end Message

end BoxCalculus.Rpc
