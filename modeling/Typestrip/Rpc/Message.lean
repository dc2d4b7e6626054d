import Typestrip.Rpc.Failure

/-!
# Messages

A message is a request, which calls a command, or the response to one. Both are JSON arrays, which
travel in an envelope together with buffers of bytes:

- `["rpc:request", id, command, argument, …]`, where the command is a string, or the array of the
  string and the number of buffers if there are any;
- `["rpc:response", id, false, result]` or `["rpc:response", id, true, failure]`.

`Message.decode` takes more than `Message.encode` writes. What it ignores are items after the last
one; a missing result counts as `null`, and any value may stand in the place of a failure.
-/

namespace Typestrip.Rpc

/-- A sequence of bytes that travels beside a message. -/
abbrev Buffer := List UInt8

/-- What travels between two ports. -/
structure Envelope where
  body : String
  transfer : List Buffer
  deriving DecidableEq, Repr

/-- A call of a command. The arguments are values as the JSON reader gives them, with the fields of
objects in ascending order. -/
structure Request where
  id : UInt64
  command : String
  args : List Json
  transfer : List Buffer

/-- The answer to the request with the same number. -/
structure Response where
  id : UInt64
  outcome : Except Failure Json

/-- What ports exchange. -/
inductive Message where
  | request (r : Request)
  | response (r : Response)

/-- Why a body is no message. -/
inductive Malformed where
  | notJson
  | notArray
  | missingId
  | missingCommand
  /-- The command is an array, but not of a string and one more item. -/
  | badPair
  /-- The number of buffers is not given as an unsigned whole number. -/
  | badCount
  /-- The envelope has another number of buffers than the message says. -/
  | wrongCount (expected found : Nat)
  | missingFlag
  | unknownMarker
  deriving DecidableEq, Repr

/-- What is wrong with a body. -/
def Malformed.reason : Malformed → String
  | notJson => "body is not JSON"
  | notArray => "message is not an array"
  | missingId => "missing numeric id"
  | missingCommand => "missing command"
  | badPair => "command pair must be [command, transferCount]"
  | badCount => "transfer count is not a number"
  | wrongCount expected found => s!"expected {expected} transferred buffers, got {found}"
  | missingFlag => "missing error flag"
  | unknownMarker => "unknown marker"

/-- The first item of a request. -/
def requestMarker : String := "rpc:request"

/-- The first item of a response. -/
def responseMarker : String := "rpc:response"

namespace Request

/-- The command as it stands in a message. -/
def commandItem (r : Request) : Json :=
  if r.transfer.isEmpty then .string r.command
  else .array [.string r.command, .ofNat r.transfer.length]

/-- The items of a request. -/
def items (r : Request) : List Json :=
  .string requestMarker :: .ofNat r.id.toNat :: r.commandItem :: r.args

/-- Puts a request into an envelope. -/
def encode (r : Request) : Envelope := ⟨(Json.array r.items).text, r.transfer⟩

end Request

namespace Response

/-- The items of a response. -/
def items (r : Response) : List Json :=
  .string responseMarker :: .ofNat r.id.toNat ::
    match r.outcome with
    | .ok result => [.bool false, result]
    | .error failure => [.bool true, failure.toJson.sorted]

/-- Puts a response into an envelope. -/
def encode (r : Response) : Envelope := ⟨(Json.array r.items).text, []⟩

end Response

namespace Message

/-- Puts a message into an envelope. -/
def encode : Message → Envelope
  | request r => r.encode
  | response r => r.encode

/-- The command of a request with the number of its buffers. -/
def readCommand : List Json → Except Malformed (String × Nat × List Json)
  | .string command :: args => .ok (command, 0, args)
  | .array [.string command, count] :: args =>
    match count.unsigned? with
    | some n => .ok (command, n, args)
    | none => .error .badCount
  | .array _ :: _ => .error .badPair
  | _ => .error .missingCommand

/-- The request with the given items after its number. -/
def readRequest (id : UInt64) (transfer : List Buffer) (items : List Json) :
    Except Malformed Request :=
  match readCommand items with
  | .ok (command, count, args) =>
    if count = transfer.length then .ok ⟨id, command, args, transfer⟩
    else .error (.wrongCount count transfer.length)
  | .error e => .error e

/-- The failure that a value stands for: the one it records, or its text. -/
def readFailure (j : Json) : Failure := (Failure.ofJson? j).getD (.ofText j.text)

/-- The response with the given items after its number. -/
def readResponse (id : UInt64) : List Json → Except Malformed Response
  | .bool failed :: rest =>
    let result := rest.headD .null
    .ok ⟨id, if failed then .error (readFailure result) else .ok result⟩
  | _ => .error .missingFlag

/-- The message with the given items. -/
def ofItems (transfer : List Buffer) : List Json → Except Malformed Message
  | marker :: number :: rest =>
    match number.unsigned? with
    | none => .error .missingId
    | some n =>
      if marker.string? = some requestMarker then
        (readRequest (.ofNat n) transfer rest).map request
      else if marker.string? = some responseMarker then
        (readResponse (.ofNat n) rest).map response
      else .error .unknownMarker
  | _ => .error .missingId

/-- Reads the message in an envelope. -/
def decode (e : Envelope) : Except Malformed Message :=
  match Json.parse? e.body.toList with
  | some (.array items) => ofItems e.transfer items
  | some _ => .error .notArray
  | none => .error .notJson

end Message

/-- Why a call has no result. -/
inductive DispatchError where
  /-- The handler reported a failure. -/
  | remote (failure : Failure)
  /-- The far side is gone. -/
  | disconnected
  /-- An envelope holds no message. -/
  | malformed (cause : Malformed)
  /-- A pool without workers was asked for. -/
  | emptyPool
  deriving DecidableEq, Repr

/-- The message for a dispatch error. -/
def DispatchError.message : DispatchError → String
  | remote failure => "remote call failed: " ++ failure.text
  | disconnected => "execution context disconnected"
  | malformed cause => "malformed message: " ++ cause.reason
  | emptyPool => "worker pool needs at least one execution context"

end Typestrip.Rpc
