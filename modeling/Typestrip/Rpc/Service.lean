import Typestrip.Rpc.Message
import Typestrip.Text.Quoted

/-!
# Services

A service is a table of handlers, one for each command, over a common state. `Service.invoke` calls a
handler. A command without a handler, and a handler that panics, give a failure like any other, and
the service goes on.

`Service.react` is what a service does with an envelope: it answers a request and takes no notice of
anything else. `Service.serve` does so with one envelope after the other.
-/

namespace Typestrip.Rpc

/-- The arguments and buffers of a call. -/
structure Call where
  args : List Json
  transfer : List Buffer

/-- An argument that has to be a text. -/
def Call.text (c : Call) (index : Nat) : Except Failure String :=
  match (c.args[index]?).bind Json.string? with
  | some s => .ok s
  | none => .error ⟨"TypeError", s!"argument {index} must be a string"⟩

/-- How a handler ends. -/
inductive Reaction where
  | result (j : Json)
  | failure (f : Failure)
  /-- The handler panicked, with a message if there is one. -/
  | panic (message : Option String)

/-- What a reaction means for the caller. -/
def Reaction.outcome : Reaction → Except Failure Json
  | result j => .ok j
  | failure f => .error f
  | panic message => .error ⟨"Panic", message.getD "handler panicked"⟩

/-- A handler reads and changes the state of its service. -/
abbrev Handler (σ : Type) := Call → σ → Reaction × σ

/-- Handlers by the names of their commands, which ascend, and their state. -/
structure Service (σ : Type) where
  handlers : List (String × Handler σ)
  state : σ

namespace Service

variable {σ : Type}

/-- A service without handlers. -/
def empty (state : σ) : Service σ := ⟨[], state⟩

/-- Gives a command a handler, in place of the one it had. -/
def register (s : Service σ) (command : String) (h : Handler σ) : Service σ :=
  { s with handlers := Fields.insert command h s.handlers }

/-- Whether a command has a handler. -/
def handles (s : Service σ) (command : String) : Bool :=
  (Fields.find? command s.handlers).isSome

/-- Calls the handler of a command. -/
def invoke (s : Service σ) (command : String) (c : Call) : Except Failure Json × Service σ :=
  match Fields.find? command s.handlers with
  | some h =>
    let (reaction, state) := h c s.state
    (reaction.outcome, { s with state })
  | none => (.error ⟨"UnknownCommand", s!"no handler for command '" ++ command ++ "'"⟩, s)

/-- The service as it is shown: the names of its commands. -/
def text (s : Service σ) : String :=
  "Implementation \x7b commands: [" ++ ", ".intercalate (s.handlers.map (Text.quote ·.1)) ++ "] \x7d"

/-- Answers the request in an envelope. There is no answer to anything else. -/
def react (s : Service σ) (e : Envelope) : Option Envelope × Service σ :=
  match Message.decode e with
  | .ok (.request r) =>
    let (outcome, s) := s.invoke r.command ⟨r.args, r.transfer⟩
    (some (Response.encode ⟨r.id, outcome⟩), s)
  | _ => (none, s)

/-- Answers the requests among envelopes, in order. -/
def serve (s : Service σ) : List Envelope → List Envelope × Service σ
  | [] => ([], s)
  | e :: es =>
    let (reply, s) := s.react e
    let (replies, s) := s.serve es
    (reply.toList ++ replies, s)

end Service

end Typestrip.Rpc
