import FeltRelay.Failure
import FeltRelay.Settings
import FeltRelay.Text.Blank

/-!
# Servers

Where a service is reached and how: the base address, whether its jobs are polled and with what
limits, and extra headers and a time limit for its requests.
-/

namespace FeltRelay.Server

structure Polling where
  maxAttempts : Int
  interval : Float
  requestTimeout : Float
  overallTimeout : Float

def Polling.ofDefaults (d : PollingDefaults) : Polling :=
  ⟨d.maxAttempts, d.interval, d.requestTimeout, d.overallTimeout⟩

structure Entry where
  service : Yaml.Scalar
  url : String
  polling : Bool
  limits : Polling
  headers : List (String × String)
  timeout : Option Float

/-- The address that requests with a path go to. -/
def Entry.urlFor (e : Entry) (path : String) : String := e.url ++ "/" ++ path

/-- The address that the state of a job is asked at. -/
def Entry.statusUrl (e : Entry) (job : String) : String := e.url ++ "/status/" ++ job

/-- Whether `://` occurs. -/
def hasScheme : List Char → Bool
  | [] => false
  | c :: rest => [':', '/', '/'].isPrefixOf (c :: rest) || hasScheme rest

def dropSlashes (s : List Char) : List Char := (s.reverse.dropWhile (· = '/')).reverse

/-- An address with a scheme in front and no slash at the end. -/
def normalize (address : String) : String :=
  let s := Text.trimChars address.toList
  let s := if hasScheme s then s else "http://".toList ++ s
  String.ofList (dropSlashes s)

/-- The servers of services, in order. A file may name a service by any scalar; only those named by
a text are ever looked for. -/
structure Table where
  entries : List Entry

def Table.lookup? (t : Table) (service : String) : Option Entry :=
  t.entries.find? (·.service.text? = some service)

/-- The server of a service, or why there is none. -/
def Table.require (t : Table) (service : String) : Except Failure Entry :=
  match t.lookup? service with
  | some e => .ok e
  | none => .error (.serverNotConfigured service)

end FeltRelay.Server
