import FeltRelay.Cairo.Declarations
import FeltRelay.Path
import FeltRelay.Process
import FeltRelay.Schema.Definitions
import FeltRelay.Schema.Lock.Reader
import FeltRelay.Server.Table

/-!
# Files

What is read from files and written to them. Each file that was read or written leaves an entry in
the journal.
-/

namespace FeltRelay.Files

open FeltRelay.Schema

def note (level : Journal.Level) (logger message : String) (fields : Journal.Fields) :
    Activity Unit :=
  Activity.note ⟨level, Journal.rootLogger ++ "." ++ logger, message, [], fields, none⟩

/-- A path that a file can have. No path holds the character zero. -/
def usable (path : String) : Attempt String :=
  if path.toList.contains '\x00' then .error .malformed else .ok path

def contents (path : String) : Activity Contents := do
  Activity.once (.readFile (← Activity.ofAttempt (usable path)))

/-- The settings: the file asked for, or that of the environment, under the environment. -/
def readSettings (env : Settings.Environment) (asked : Option String) : Activity Settings := do
  match Settings.pathOf env asked with
  | none => Activity.ofAttempt (Settings.load env none [])
  | some path =>
    Activity.ofAttempt (Settings.load env (some (path, ← contents path)) [])

/-- How many messages, enumerations and services a model has. -/
def counts (m : Model) : Journal.Fields :=
  [("messages", m.messages.length), ("enums", m.enums.length), ("services", m.services.length)]

def readDefinitions (path : String) : Activity Model := do
  let m ← Activity.ofAttempt (Model.ofFile path (← contents path))
  note .debug "schema.idl" "definitions loaded" (counts m)
  return m

def readLock (path : String) : Activity Lock := do
  let l ← Activity.ofAttempt (Lock.ofFile path (← contents path))
  note .debug "schema.lock" "lock loaded" [("path", path), ("schema_hash", l.hash)]
  return l

def readServers (defaults : PollingDefaults) (path : String) : Activity Server.Table := do
  let t ← Activity.ofAttempt
    (Server.Table.ofFile defaults path (← contents path))
  note .debug "dispatch.addresses" "address table loaded"
    [("path", path),
      ("services", Json.arr ((← Activity.ofAttempt t.services).map Yaml.Scalar.json))]
  return t

def declare (m : Model) (source : String) : Activity String := do
  note .debug "codegen" "generated declarations" (counts m ++ [("schema_hash", .json m.hash)])
  return Cairo.emit m.lock source

/-- Goes on only if a step succeeded. -/
def require (step : Question) (ok : step.Answer → Bool) (f : Failure) : Activity Unit := do
  if ok (← Activity.once step) then return () else Activity.fail f

/-- The name of the file that holds a lock. -/
def lockName : String := "oracle_lock.json"

/-- Writes declarations and lock into a directory; their paths. -/
def writeArtifacts (declarations : String) (l : Lock) (directory name : String) :
    Activity (String × String) := do
  let cairo := Path.join directory (name ++ ".cairo")
  let lock := Path.join directory lockName
  let refused := Failure.outputFiles directory
  require (.makeDirectory (← Activity.ofAttempt (usable directory))) id refused
  require (.writeFile (← Activity.ofAttempt (usable cairo)) declarations) id refused
  require (.writeFile lock l.text) id refused
  note .info "codegen" "wrote generated files"
    [("declarations", cairo), ("lock", lock), ("schema_hash", l.hash)]
  return (cairo, lock)

end FeltRelay.Files
