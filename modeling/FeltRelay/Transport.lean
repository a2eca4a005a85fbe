import FeltRelay.Decimal.Literal
import FeltRelay.Decimal.Scientific
import FeltRelay.Json.Table
import FeltRelay.Network.Credentials
import FeltRelay.Process
import FeltRelay.Server.Entry

/-!
# Transport

A call sends a JSON request to the server of a service and gives back its JSON answer. A polled
server acknowledges the request with the name of a job; then the state of the job is asked for until
the job has ended, or until one of two budgets is spent, the count of attempts or the time. Nothing
is sent twice.
-/

namespace FeltRelay

open FeltRelay.Network FeltRelay.Text

/-- The headers that requests have unless told otherwise. -/
def Transport.usualHeaders : Headers := [("Accept", "application/json")]

/-- How requests are sent where a server does not say otherwise. -/
structure Transport where
  timeout : Float := 30.0
  headers : Headers := Transport.usualHeaders

namespace Transport

def logger : String := "oracle_bridge.dispatch.transport"

/-- An entry of the journal for those who look for mistakes. -/
def entry (context : Journal.Fields) (message : String) (fields : Journal.Fields) :
    Journal.Record :=
  ⟨.debug, logger, message, context, fields, none⟩

/-! ### One exchange -/

def isSendable (s : String) : Bool := s.toList.all (·.toNat < 128)

/-- The body of a request; null is none. -/
def bodyOf : Json → Option Json
  | .null => none
  | v => some v

/-- A request to an address as it is written. -/
def request (t : Transport) (method : Method) (url : String) (timeout : Float) (headers : Headers)
    (body : Json) : Attempt Request :=
  match Url.read? url with
  | none => .error (.unusableUrl url)
  | some address =>
    if !headers.all fun (name, v) => isSendable name && isSendable v then
      .error .unsendableHeader
    else if !body.isFinite then .error .unsendableBody
    else
      let body := bodyOf body
      let headers := requestHeaders t.headers headers body.isSome
      if !address.host.all (·.toNat < 128) && !Entries.has "host" headers then
        .error .unsendableHeader
      else
        let headers := match address.authorization? with
          | some who => Entries.put "authorization" who headers
          | none => headers
        .ok ⟨method, address, body, headers, timeout⟩

/-- The value that a reply brings. It has to be JSON, and to come with success; where nobody was
asked, as the address names no host, an answer is of no use. -/
def payload (method : Method) (url : String) (timeout : Float) (placed : Bool) :
    Reply → Attempt Json
  | .timedOut =>
    .error (.failure (.transportError
      (method.name ++ " " ++ url ++ " timed out after " ++
        Decimal.render Decimal.shortNames timeout ++ "s") "TIMEOUT" url))
  | .disconnected text =>
    .error (.failure (.transportError (method.name ++ " " ++ url ++ " failed: " ++ text)
      "CONNECT" url))
  | .misled text =>
    .error (.failure (.transportError (method.name ++ " " ++ url ++ " failed: " ++ text)
      "HTTP" url))
  | .unusableUrl => .error (.unusableUrl url)
  | .answered status body =>
    let refusal := url ++ " answered HTTP " ++ integer status
    if !placed then .error .malformed
    else match bodyValue? body with
      | none =>
        if isSuccess status then
          .error (.failure (.malformedResponse url (Utf8.decodeLossy body)))
        else .error (.failure (.transportError refusal "HTTP" url))
      | some v =>
        if isSuccess status then .ok v else .error (.failure (.oracleRejected refusal v status))

/-- Sends a request and takes the value that comes back. -/
def exchange (t : Transport) (context : Journal.Fields) (method : Method) (url : String)
    (timeout : Float) (headers : Headers) (body : Json) : Activity Json := do
  Activity.note (entry context "oracle request" [("method", method.name), ("url", url)])
  let request ← Activity.ofAttempt (t.request method url timeout headers body)
  let reply ← Activity.once (.send request)
  Activity.ofAttempt (payload method url timeout request.url.isPlaced reply)

/-! ### Jobs -/

/-- The name of the job that an acknowledgement gives. -/
def jobOf? (ack : Json) : Option String :=
  match ack.member? "jobId" with
  | some (.str s) => some s
  | some (.int i) => some (integer i)
  | _ => none

inductive JobState where
  | completed | failed | pending
deriving DecidableEq, Repr

/-- The state of a job, as a server tells it. -/
def JobState.ofJson (status : Json) : JobState :=
  match status.member? "status" with
  | some (.str s) =>
    if s = "completed" then completed else if s = "failed" then failed else pending
  | _ => pending

def expired (e : Server.Entry) (job : String) (attempts : Nat) (elapsed : Float) : Failure :=
  .transportError ("job " ++ job ++ " not completed after " ++ decimal attempts ++ " attempts (" ++
    Decimal.fixed 1 elapsed ++ "s)") "TIMEOUT" (e.statusUrl job)

/-- Asks for the state of a job until it has ended: at most `left` times more, after `attempts`
times before. -/
def await (t : Transport) (context : Journal.Fields) (e : Server.Entry) (job : String)
    (started : Float) : (left attempts : Nat) → Activity Json
  | 0, attempts => do
    let now ← Activity.once .clock
    Activity.fail (expired e job attempts (now - started))
  | left + 1, attempts => do
    let now ← Activity.once .clock
    if e.limits.overallTimeout < now - started then
      Activity.fail (expired e job attempts (now - started))
    else
      let status ←
        t.exchange context .get (e.statusUrl job) e.limits.requestTimeout e.headers .null
      let attempts := attempts + 1
      match JobState.ofJson status with
      | .completed =>
        Activity.note (entry context "job completed" [("job_id", job), ("attempts", attempts)])
        return status
      | .failed => Activity.fail (.oracleRejected ("job " ++ job ++ " failed") status none)
      | .pending =>
        Activity.note (entry context "job pending" [("job_id", job), ("attempt", attempts),
          ("status", (status.member? "status").getD .null)])
        Activity.once (.sleep e.limits.interval)
        await t context e job started left attempts

def poll (t : Transport) (context : Journal.Fields) (e : Server.Entry) (url : String)
    (body : Json) : Activity Json := do
  let started ← Activity.once .clock
  let ack ← t.exchange context .post url e.limits.requestTimeout e.headers body
  match jobOf? ack with
  | none => Activity.fail (.oracleRejected (url ++ " did not answer with a jobId") ack none)
  | some job => t.await context e job started e.limits.maxAttempts.toNat 0

/-- Sends a request to a path of a server and takes the answer. -/
def call (t : Transport) (context : Journal.Fields) (e : Server.Entry) (path : String)
    (body : Json) : Activity Json :=
  if e.polling then t.poll context e (e.urlFor path) body
  else t.exchange context .post (e.urlFor path) (e.timeout.getD t.timeout) e.headers body

/-! ### Settings -/

/-- An entry under a name that is a text. -/
def named? : Json × Json → Option (String × Json)
  | (.str k, v) => some (k, v)
  | _ => none

/-- A header, if it can be sent. -/
def headerOf (e : String × Json) : Attempt (String × String) :=
  match e with
  | (name, .str v) =>
    if isSendable name && isSendable v then .ok (name, v) else .error .unsendableHeader
  | (name, _) => .error (if isSendable name then .wrongKind else .unsendableHeader)

/-- Headers from a setting, written over the usual ones. -/
def headersOf (v : Json) : Attempt Headers := do
  let entries ← v.entries
  let usual := usualHeaders.map fun (name, v) => (name, Json.str v)
  let early := entries.takeWhile fun e => (named? e).isSome
  let headers := Entries.putAll usual (entries.filterMap named?)
  let headers ← (headers.take (Entries.putAll usual (early.filterMap named?)).length).mapM headerOf
  if early.length < entries.length then throw .unfit
  return headers

/-- Seconds from a setting: a number, a truth value, which counts as one or zero, or a text that
spells a number. -/
def secondsOf : Json → Attempt Float
  | .num x => .ok x
  | .int i =>
    match Decimal.ofInt? i with
    | some x => .ok x
    | none => .error (.tooLarge i)
  | .bool b => .ok (if b then 1.0 else 0.0)
  | .str s =>
    match Decimal.ofText? s with
    | some x => .ok x
    | none => .error .malformed
  | _ => .error .wrongKind

def ofJson (v : Json) : Attempt Transport := do
  let timeout ← match v.member? "timeout" with
    | some t => secondsOf t
    | none => pure 30.0
  return ⟨timeout, ← headersOf ((v.member? "headers").getD .null)⟩

end Transport

end FeltRelay
