import FeltRelay.Json.Reader
import FeltRelay.Path
import FeltRelay.Problem
import FeltRelay.Text.Blank
import FeltRelay.Text.Utf8
import FeltRelay.Yaml.Reader

/-!
# Documents in files

A file is read as UTF-8 text, line breaks of every kind as line feeds. Data are JSON, or YAML where
the file's name ends so. Which kind of failure a file gives rise to depends on what it is read for.
-/

namespace FeltRelay

/-- What the surroundings gave for a file: its bytes, or nothing if it cannot be read. -/
abbrev Contents := Option (List UInt8)

namespace Document

/-- What a file is read for. -/
inductive Purpose where
  | definitions | lock | settings | servers
deriving DecidableEq, Repr

def Purpose.noun : Purpose → String
  | definitions => "definitions file"
  | lock => "lock artifact"
  | settings => "config file"
  | servers => "server-address table"

/-- The kind of failure that a file gives rise to. -/
def Purpose.kind : Purpose → Failure.Kind
  | definitions => .schema
  | lock => .lockLoad
  | settings => .config
  | servers => .config

/-- A file on which something could not be done. -/
def unable (act : String) (purpose : Purpose) (path : String) : Failure :=
  ⟨purpose.kind, "cannot " ++ act ++ " " ++ purpose.noun ++ " " ++ path ++ ": *", .nowhere,
    [("path", path)]⟩

def text (purpose : Purpose) (path : String) : Contents → Attempt String
  | none => .error (.failure (unable "read" purpose path))
  | some bytes =>
    match Text.Utf8.decode? bytes with
    | some s => .ok (String.ofList (Text.unifyBreaks (· = '\r') s.toList))
    | none => .error .notText

/-- Whether a file holds YAML, by its name. -/
def isYaml (path : String) : Bool := [".yaml", ".yml"].contains (Text.lower (Path.suffix path))

/-- What a file holds, unless it cannot be parsed. -/
def parsed {α : Type} (purpose : Purpose) (path : String) : Option α → Attempt α
  | some v => .ok v
  | none => .error (.failure (unable "parse" purpose path))

/-- The members of an object under their names; nothing for other values. -/
def membersOf : Json → Option Yaml.Named
  | .obj ms => some (ms.map fun (name, v) => (.str name, v))
  | _ => none

/-- The members of the mapping that a file holds; nothing if it holds something else. -/
def members (purpose : Purpose) (path : String) (contents : Contents) :
    Attempt (Option Yaml.Named) := do
  let s ← text purpose path contents
  if isYaml path then
    match (← parsed purpose path (Yaml.read? s)).members with
    | .ok ms => return ms
    | .error weight => throw (.tooLarge weight)
  else return membersOf (← parsed purpose path (Json.read? s))

end Document

end FeltRelay
