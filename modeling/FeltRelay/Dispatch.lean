import FeltRelay.Codec.Flat.Decode
import FeltRelay.Codec.Flat.Encode
import FeltRelay.Dispatch.Drift
import FeltRelay.Transport

/-!
# Dispatch

A program asks a question with a selector and elements. The dispatcher finds the method in the lock,
reads the elements as the request message, sends it to the server of the service, and writes the
result that comes back as elements. What goes wrong on the way is one failure, which names the stage
that was being entered. A call goes through its stages in order; when it fails, no other follows.
-/

namespace FeltRelay.Server

/-- A server wraps what it computed: an object with a member `result` and no member `error`. Other
members are ignored. -/
def unwrap? (payload : Json) : Option Json :=
  match payload.member? "error" with
  | some _ => none
  | none => payload.member? "result"

/-- The value in an envelope, or the refusal of what is none. -/
def unwrap (payload : Json) : Except Failure Json :=
  match unwrap? payload with
  | some v => .ok v
  | none =>
    .error (.oracleRejected "response is not a \x7b\"result\": ...\x7d envelope" payload none)

end FeltRelay.Server

namespace FeltRelay

open FeltRelay.Dispatch FeltRelay.Codec

structure Dispatcher where
  model : Schema.Model
  table : Server.Table
  transport : Transport
  modulus : Int

namespace Dispatch

/-! ### Stages -/

inductive Stage where
  | received
  /-- The selector has led to a method. -/
  | resolved
  /-- The elements have been read as the request. -/
  | encoded
  /-- The server is known. -/
  | awaitingResponse
  /-- The answer has been written as elements. -/
  | decoded
  | completed
  | failed
deriving DecidableEq, Repr

namespace Stage

def name : Stage → String
  | received => "Received"
  | resolved => "Resolved"
  | encoded => "Encoded"
  | awaitingResponse => "AwaitingResponse"
  | decoded => "Decoded"
  | completed => "Completed"
  | failed => "Failed"

def path : List Stage := [received, resolved, encoded, awaitingResponse, decoded, completed]

end Stage

/-! ### Outcomes -/

structure CallFailure where
  selector : String
  /-- The stage that was being entered. -/
  stage : Stage
  cause : Failure

def CallFailure.toFailure (f : CallFailure) : Failure :=
  .dispatchFailed f.selector f.stage.name f.cause

/-- What a call ends with if it brings no elements. -/
inductive Stop where
  | failed (failure : CallFailure)
  /-- The call was broken off by something that is no failure of the library. -/
  | broken (problem : Problem)

/-- How a call went: the stages that it entered, and its elements. -/
structure Outcome where
  trace : List Stage
  result : Except Stop (List Int)

def logger : String := "oracle_bridge.dispatch"

def enter (context : Journal.Fields) (stage : Stage) (fields : Journal.Fields) : Process Unit :=
  Process.once (.note ⟨.debug, logger, "dispatch state", context,
    ("state", stage.name) :: fields, none⟩)

/-- Ends a call in a failure that arose while a stage was being entered. -/
def fail (context : Journal.Fields) (selector : String) (trace : List Stage) (stage : Stage)
    (cause : Failure) : Process Outcome := do
  Process.once (.note ⟨.warning, logger, "oracle call failed", context,
    [("state", stage.name), ("kind", cause.code), ("error", cause.message)], none⟩)
  return ⟨trace ++ [.failed], .error (.failed ⟨selector, stage, cause⟩)⟩

end Dispatch

namespace Dispatcher

/-- Takes the result out of an answer and writes it as elements. -/
def finish (d : Dispatcher) (context : Journal.Fields) (selector : String) (trace : List Stage)
    (method : Schema.Method) (payload : Json) : Process Outcome := do
  let elements := (Server.unwrap payload).bind fun result =>
    Flat.encode d.model d.modulus (.message method.response) result
  match elements with
  | .error cause => fail context selector trace .decoded cause
  | .ok elements =>
    enter context .decoded []
    enter context .completed [("elements", elements.length)]
    return ⟨trace ++ [.decoded, .completed], .ok elements⟩

/-- Sends the request to the server of the service. -/
def send (d : Dispatcher) (context : Journal.Fields) (selector : String) (trace : List Stage)
    (service : String) (method : Schema.Method) (request : Json) : Process Outcome := do
  match d.table.require service with
  | .error cause => fail context selector trace .awaitingResponse cause
  | .ok server =>
    enter context .awaitingResponse
      [("url", server.urlFor method.path), ("polling", Json.bool server.polling)]
    let trace := trace ++ [.awaitingResponse]
    match ← (d.transport.call context server method.path request).run with
    | .error (.failure cause) => fail context selector trace .awaitingResponse cause
    | .error problem => return ⟨trace, .error (.broken problem)⟩
    | .ok payload => d.finish context selector trace method payload

def ask (d : Dispatcher) (selector : String) (elements : List Json) : Process Outcome := do
  let name ← Process.once .newTrace
  let context : Journal.Fields :=
    [("trace_id", name), ("component", "dispatcher"), ("selector", selector)]
  enter context .received [("elements", elements.length)]
  match d.model.findSelector selector with
  | .error cause => fail context selector [.received] .resolved cause
  | .ok (service, method) =>
    let context := context ++ [("service", .json service)]
    enter context .resolved [("method", method.name)]
    match Flat.decodeExact d.model d.modulus (.message method.request) elements with
    | .error cause => fail context selector [.received, .resolved] .encoded cause
    | .ok request =>
      enter context .encoded []
      d.send context selector [.received, .resolved, .encoded] service method request

end Dispatcher

namespace Dispatch

/-- What a dispatcher is made with, apart from lock and table. -/
structure Setup where
  /-- The hash that generated code carries. -/
  expected : Option ExpectedHash := none
  settings : Option Settings := none
  transport : Option Transport := none
  modulus : Int := starkPrime

def transportOf (s : Settings) : Attempt Transport := do
  return ⟨s.requestTimeout, ← Transport.headersOf s.headers⟩

end Dispatch

/-- A dispatcher for a lock. The modulus of settings, if there are some, goes before the one that is
given; a transport that is given goes before the one of settings. -/
def Dispatcher.ofLock (lock : Schema.Lock) (table : Server.Table) (setup : Setup) :
    Attempt Dispatcher := do
  if let some expected := setup.expected then
    Attempt.ofExcept (checkDrift expected lock)
  let transport ← match setup.transport, setup.settings with
    | some t, _ => pure t
    | none, some s => transportOf s
    | none, none => pure {}
  let modulus := (setup.settings.map Settings.modulus).getD setup.modulus
  return ⟨lock.model, table, transport, modulus⟩

end FeltRelay
