import FeltRelay.Schema.Lock.Form
import FeltRelay.Server.Entry

/-!
# Tables of servers

A table is an object with a member per service: its address as a text, or an object with the
address and options. A member at fault is reported by the deepest place that breaks the form.
-/

namespace FeltRelay.Server

open FeltRelay.Schema

/-! ### The form of a table -/

/-- The faults of a text that must not be empty. -/
def nonemptyFaults : Json → List (List Step)
  | .str s => if s.isEmpty then [[]] else []
  | _ => [[]]

/-- The faults of a truth value. -/
def boolFaults : Json → List (List Step)
  | .bool _ => []
  | _ => [[]]

/-- The faults of a positive number. What is no number compares with nothing and passes. -/
def positiveFaults : Json → List (List Step)
  | .int i => if i ≤ 0 then [[]] else []
  | .num x => if x ≤ 0.0 then [[]] else []
  | _ => [[]]

/-- The faults of a number that is not negative. -/
def nonnegativeFaults : Json → List (List Step)
  | .int i => if i < 0 then [[]] else []
  | .num x => if x < 0.0 then [[]] else []
  | _ => [[]]

/-- The integer that a value is; a whole number counts. -/
def integer? : Json → Option Int
  | .int i => some i
  | .num x => Decimal.toInt? x
  | _ => none

/-- The faults of an integer that is at least one. -/
def countFaults (v : Json) : List (List Step) :=
  match integer? v with
  | some i => if i < 1 then [[]] else []
  | none => [[]]

/-- The faults of headers: texts under any names. -/
def headersFaults : Json → List (List Step)
  | .obj ms => everyMemberFaults textFaults ms
  | _ => [[]]

def limitsFaults : Json → List (List Step)
  | .obj ms =>
    nameFaults [] ["max_attempts", "polling_interval", "request_timeout", "overall_timeout"] ms ++
      memberFaults countFaults "max_attempts" ms ++
      memberFaults nonnegativeFaults "polling_interval" ms ++
      memberFaults positiveFaults "request_timeout" ms ++
      memberFaults positiveFaults "overall_timeout" ms
  | _ => [[]]

/-- The faults of a server given as an object. -/
def objectFaults (ms : List (String × Json)) : List (List Step) :=
  nameFaults ["server_url"]
      ["server_url", "polling", "polling_config", "headers", "timeout"] ms ++
    memberFaults nonemptyFaults "server_url" ms ++ memberFaults boolFaults "polling" ms ++
    memberFaults limitsFaults "polling_config" ms ++ memberFaults headersFaults "headers" ms ++
    memberFaults positiveFaults "timeout" ms

/-- The first of the deepest places. -/
def deepest? : List (List Step) → Option (List Step)
  | [] => none
  | p :: rest =>
    match deepest? rest with
    | none => some p
    | some q => if q.length ≤ p.length then some p else some q

/-- The fault of a server, if there is one. -/
def entryFault? : Json → Option (List Step)
  | .obj ms => deepest? (objectFaults ms)
  | v => deepest? (nonemptyFaults v)

/-- The fault of a table, if there is one: that of the first service that has one. What is no
mapping is no table. -/
def fault? : Option Yaml.Named → Option (List Step)
  | some ms =>
    ms.findSome? fun (service, v) => (entryFault? v).map (.member service.json.plainText :: ·)
  | none => some []

/-! ### Reading -/

/-- A number of an object of the right form, or a default. -/
def numberOr (default : Float) (name : String) (v : Json) : Attempt Float :=
  match v.member? name with
  | some (.int i) =>
    match Decimal.ofInt? i with
    | some x => .ok x
    | none => .error (.tooLarge i)
  | some (.num x) => .ok x
  | _ => .ok default

/-- Polling limits, each that is not given taken from a default. -/
def Polling.ofJson (base : Polling) (v : Json) : Attempt Polling := do
  let interval ← numberOr base.interval "polling_interval" v
  let requestTimeout ← numberOr base.requestTimeout "request_timeout" v
  let overallTimeout ← numberOr base.overallTimeout "overall_timeout" v
  let maxAttempts := ((v.member? "max_attempts").bind integer?).getD base.maxAttempts
  return ⟨maxAttempts, interval, requestTimeout, overallTimeout⟩

/-- The time limit of an object, if it has one. -/
def timeoutOf (v : Json) : Attempt (Option Float) :=
  match v.member? "timeout" with
  | some _ => some <$> numberOr 0.0 "timeout" v
  | none => .ok none

def textOf : Json → String
  | .str s => s
  | _ => ""

def Entry.ofJson (base : Polling) (service : Yaml.Scalar) : Json → Attempt Entry
  | .str address => .ok ⟨service, normalize address, false, base, [], none⟩
  | v => do
    let limits ← Polling.ofJson base ((v.member? "polling_config").getD .null)
    let timeout ← timeoutOf v
    let polling := match v.member? "polling" with
      | some (.bool b) => b
      | _ => false
    let headers := ((v.member? "headers").map Json.members).getD []
    return ⟨service, normalize (textOf ((v.member? "server_url").getD .null)), polling, limits,
      headers.map fun (name, text) => (name, textOf text), timeout⟩

/-- A table from its members. -/
def Table.ofMembers (defaults : PollingDefaults) (ms : Option Yaml.Named) : Attempt Table :=
  match fault? ms with
  | some place =>
    let path := pathText place
    .error (.failure (.config ("invalid server-address table at " ++ path ++ ": *")
      [("path", path)]))
  | none => do
    return ⟨← (ms.getD []).mapM fun (service, spec) =>
      Entry.ofJson (Polling.ofDefaults defaults) service spec⟩

def Table.ofJson (defaults : PollingDefaults) (v : Json) : Attempt Table :=
  Table.ofMembers defaults (Document.membersOf v)

/-- The names of all services in order. -/
def Table.services (t : Table) : Attempt (List Yaml.Scalar) :=
  let names := t.entries.map (·.service)
  if Yaml.Scalar.comparable names then .ok (names.mergeSort Yaml.Scalar.le) else .error .wrongKind

/-- A table from a file. The services of it have to have an order. -/
def Table.ofFile (defaults : PollingDefaults) (path : String) (contents : Contents) :
    Attempt Table := do
  let t ← Table.ofMembers defaults (← Document.members .servers path contents)
  let _ ← t.services
  return t

end FeltRelay.Server
