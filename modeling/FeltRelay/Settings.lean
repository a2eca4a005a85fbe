import FeltRelay.Codec.Element
import FeltRelay.Document
import FeltRelay.Settings.Value

/-!
# Settings

Settings are layered: defaults, then a file, then the environment, then overrides. Each layer sets
keys within sections and leaves the others alone. The result is checked as a whole: every section
is a mapping, values have their types, keys are known, and numbers lie within their ranges.
-/

namespace FeltRelay

namespace Settings

/-- Sections with their keys, before values are read. -/
abbrev Draft := List (String × Json)

abbrev Environment := List (String × String)

end Settings

structure PollingDefaults where
  maxAttempts : Int := 30
  interval : Float := 2.0
  requestTimeout : Float := 10.0
  overallTimeout : Float := 60.0

/-- All settings. Headers and paths are kept as they were given. -/
structure Settings where
  requestTimeout : Float := 30.0
  headers : Json := .obj []
  polling : PollingDefaults := {}
  modulus : Int := Codec.starkPrime
  lockPath : Json := "oracle_lock.json"
  serversPath : Json := "servers.json"
  outDir : Json := "src"

namespace Settings

def draft (s : Settings) : Draft :=
  [("transport", .obj [("request_timeout_s", .num s.requestTimeout), ("headers", s.headers)]),
    ("polling", .obj [("max_attempts", .int s.polling.maxAttempts),
      ("interval_s", .num s.polling.interval),
      ("request_timeout_s", .num s.polling.requestTimeout),
      ("overall_timeout_s", .num s.polling.overallTimeout)]),
    ("codec", .obj [("modulus", .int s.modulus)]),
    ("paths", .obj [("lock", s.lockPath), ("servers", s.serversPath), ("out_dir", s.outDir)])]

def defaults : Draft := draft {}

def sections : List String := ["transport", "polling", "codec", "paths"]

/-- A section with the keys of another one written over it. What is no mapping replaces a section as
a whole. -/
def overlaid (old : Option Json) (v : Json) : Json :=
  match old, v with
  | some (.obj old), .obj new => .obj (Entries.putAll old new)
  | _, v => v

/-- A draft with another one written over it, section by section. -/
def overlay (base top : Draft) : Draft :=
  top.foldl (fun acc (name, v) => Entries.put name (overlaid (acc.lookup name) v) acc) base

def hasSection (d : Draft) (name : String) : Bool :=
  match d.lookup name with
  | some (.obj _) => true
  | _ => false

/-- Refuses a draft with a section that is no mapping. -/
def checkSections (d : Draft) : Attempt Draft :=
  match sections.find? (!hasSection d ·) with
  | some name => .error (.failure (.config (name ++ " must be a mapping") [("key", name)]))
  | none => .ok d

def value? (d : Draft) (name key : String) : Option Json := (d.lookup name).bind (·.member? key)

def setValue (name key : String) (v : Json) (d : Draft) : Draft :=
  Entries.put name (.obj (Entries.put key v ((d.lookup name).map Json.members |>.getD []))) d

/-! ### Environment -/

inductive Reading where
  | duration | integer | text

/-- The value of a variable's text, if it has the right form. -/
def Reading.read? (text : String) : Reading → Option Json
  | duration => (durationOf? text).map .num
  | integer => (Text.literal? text).map .int
  | .text => some text

structure Variable where
  name : String
  place : String
  key : String
  reading : Reading

def knownVariables : List Variable :=
  [⟨"ORACLE_BRIDGE_REQUEST_TIMEOUT", "transport", "request_timeout_s", .duration⟩,
    ⟨"ORACLE_BRIDGE_POLL_MAX_ATTEMPTS", "polling", "max_attempts", .integer⟩,
    ⟨"ORACLE_BRIDGE_POLL_INTERVAL", "polling", "interval_s", .duration⟩,
    ⟨"ORACLE_BRIDGE_POLL_REQUEST_TIMEOUT", "polling", "request_timeout_s", .duration⟩,
    ⟨"ORACLE_BRIDGE_POLL_OVERALL_TIMEOUT", "polling", "overall_timeout_s", .duration⟩,
    ⟨"ORACLE_BRIDGE_MODULUS", "codec", "modulus", .integer⟩,
    ⟨"ORACLE_BRIDGE_LOCK", "paths", "lock", .text⟩,
    ⟨"ORACLE_BRIDGE_SERVERS", "paths", "servers", .text⟩,
    ⟨"ORACLE_BRIDGE_OUT_DIR", "paths", "out_dir", .text⟩]

def fileVariable : String := "ORACLE_BRIDGE_CONFIG"

def Environment.get? (env : Environment) (name : String) : Option String :=
  (env.lookup name).filter (!·.isEmpty)

/-- A draft with the keys set that variables give well-formed values for. -/
def applyEnvironment (env : Environment) (d : Draft) : Draft :=
  knownVariables.foldl (fun d x =>
    match (env.get? x.name).bind x.reading.read? with
    | some v => setValue x.place x.key v d
    | none => d) d

/-! ### Reading a draft -/

def durationAt (d : Draft) (name key : String) : Attempt Float :=
  readDuration (name ++ "." ++ key) ((value? d name key).getD .null)

def integerAt (d : Draft) (name key : String) : Attempt Int :=
  readInteger (name ++ "." ++ key) ((value? d name key).getD .null)

def keysOf (name : String) : List String :=
  Entries.keys ((defaults.lookup name).map Json.members |>.getD [])

/-- Refuses a draft with a key in a section that does not have it. -/
def checkKeys (d : Draft) : Attempt PUnit :=
  let known (name : String) : Bool :=
    (Entries.keys ((d.lookup name).map Json.members |>.getD [])).all (keysOf name).contains
  if sections.all known then .ok ()
  else .error (.failure (.config "invalid configuration: *" []))

def ofDraft (d : Draft) : Attempt Settings := do
  let d ← checkSections d
  let requestTimeout ← durationAt d "transport" "request_timeout_s"
  let interval ← durationAt d "polling" "interval_s"
  let pollRequestTimeout ← durationAt d "polling" "request_timeout_s"
  let overallTimeout ← durationAt d "polling" "overall_timeout_s"
  let maxAttempts ← integerAt d "polling" "max_attempts"
  let modulus ← integerAt d "codec" "modulus"
  checkKeys d
  let raw (name key : String) : Json := (value? d name key).getD .null
  return ⟨requestTimeout, raw "transport" "headers",
    ⟨maxAttempts, interval, pollRequestTimeout, overallTimeout⟩, modulus,
    raw "paths" "lock", raw "paths" "servers", raw "paths" "out_dir"⟩

/-- What is out of range, if anything is. A number that is no number is in no comparison. -/
def outOfRange? (s : Settings) : Option String :=
  if s.requestTimeout ≤ 0.0 then some "transport.request_timeout_s must be > 0"
  else if s.polling.maxAttempts < 1 then some "polling.max_attempts must be >= 1"
  else if s.polling.interval < 0.0 then some "polling.interval_s must be >= 0"
  else if s.polling.requestTimeout ≤ 0.0 ∨ s.polling.overallTimeout ≤ 0.0 then
    some "polling timeouts must be > 0"
  else if s.modulus ≤ Nat.pow 2 129 then some "codec.modulus must exceed 2**129"
  else none

def checkRanges (s : Settings) : Attempt Settings :=
  match s.outOfRange? with
  | some text => .error (.failure (.config text []))
  | none => .ok s

def ofLayers (env : Environment) (file : Option Draft) (overrides : Draft) :
    Attempt Settings := do
  let d ← match file with
    | none => pure defaults
    | some f => checkSections (overlay defaults f)
  checkRanges (← ofDraft (overlay (applyEnvironment env d) overrides))

/-- The path of the settings file, if there is one: the one asked for, else that of the
environment. -/
def pathOf (env : Environment) (asked : Option String) : Option String :=
  (asked <|> env.get? fileVariable).map Path.normal

/-- The draft in a file. Names that are no texts name no section. -/
def draftOf (path : String) (contents : Contents) : Attempt Draft := do
  match ← Document.members .settings path contents with
  | some ms => return ms.texts
  | none => throw (.failure (.config "config file must contain a mapping" [("path", path)]))

/-- The settings of all layers, the file still to be read. -/
def load (env : Environment) (file : Option (String × Contents)) (overrides : Draft) :
    Attempt Settings :=
  match file with
  | some (path, contents) => do ofLayers env (some (← draftOf path contents)) overrides
  | none => ofLayers env none overrides

end Settings

end FeltRelay
