import BoxCalculus.Rpc.Service

/-!
# The server

A server reads a line of text at a time. Each line is a message or a batch of messages, which are
carried out in order. The responses to a batch come in one array, in the order of the calls. Nothing
is answered any more once the service has broken down.
-/

namespace BoxCalculus.Rpc.Service

/-- Carry out a message. There may be no response. -/
def answer? (service : Service) (book : Book) (message : Message) :
    Option (Book × Option Value) := do
  let (book, outcome) ← service.call? book message.call
  return (book, ← message.respond? outcome)

/-- Carry out messages in order. -/
def answerAll? (service : Service) (book : Book) : List Message → Option (Book × List Value)
  | [] => some (book, [])
  | message :: rest => do
      let (book, response?) ← service.answer? book message
      let (book, responses) ← service.answerAll? book rest
      return (book, response?.toList ++ responses)

/-- The identifier of a message as it is written. -/
def idText? (message : Message) : Option String :=
  message.id?.map Value.text

/-- Messages of a batch that share their identifier are not carried out. -/
def rejectDuplicates (messages : List Message) : List Message :=
  messages.map fun message =>
    match idText? message with
    | none => message
    | some id =>
        if 1 < (messages.filter fun other => idText? other = some id).length then
          { message with call := .error (.invalidRequest "duplicate request ID") }
        else message

/-- Respond to a whole line with a fault. -/
def reject? (book : Book) (fault : Fault) : Option (Book × Option Value) := do
  return (book, ← (⟨none, .error fault⟩ : Message).respond? (.error fault))

/-- Carry out what a line asks for, and respond to it. An array is a batch. -/
def answerLine? (service : Service) (book : Book) (line : String) :
    Option (Book × Option Value) :=
  match Value.parse? line with
  | none => reject? book (.unreadable "invalid request value")
  | some (.array []) => reject? book (.invalidRequest "empty request batch")
  | some (.array items) => do
      match ← service.answerAll? book (rejectDuplicates (items.map Message.ofValue)) with
      | (book, []) => return (book, none)
      | (book, responses) => return (book, some (.array responses))
  | some value => service.answer? book (Message.ofValue value)

/-- Carry out lines in order, until the service breaks down. -/
def answerLines (service : Service) (book : Book) : List String → Book × List (Option Value)
  | [] => (book, [])
  | line :: rest =>
      match service.answerLine? book line with
      | none => (book, [])
      | some (book, response?) =>
          let (book, responses) := service.answerLines book rest
          (book, response? :: responses)

end BoxCalculus.Rpc.Service
