import FeltRelay.Journal.Field
import FeltRelay.Journal.Level
import FeltRelay.Json.Writer

/-!
# Journal entries

An entry carries its own fields and those of the context in which it was made. It is written as one
JSON object, or as a line for people. A field of the context hides the entry's own field of the same
name.

A context holds the fields that every entry gets. A trace scope adds the name of a trace; when it is
left, the context is what it was before.
-/

namespace FeltRelay.Journal

structure Record where
  level : Level
  logger : String
  message : String
  context : Fields
  fields : Fields := []
  /-- The text of a fault that the entry is about. -/
  fault : Option String := none

/-- The names that an entry uses itself; a field of such a name is not written. -/
def ownNames : List String :=
  ["name", "msg", "args", "levelname", "levelno", "pathname", "filename", "module", "exc_info",
    "exc_text", "stack_info", "lineno", "funcName", "created", "msecs", "relativeCreated",
    "thread", "threadName", "processName", "process", "taskName", "message"]

/-- The names that a field must not have. -/
def forbiddenNames : List String := "asctime" :: ownNames.filter (· ≠ "taskName")

def Record.visible (r : Record) : Fields :=
  r.fields.filter fun (name, _) => name.toList.head? ≠ some '_' && !ownNames.contains name

def Record.toJson (time : String) (r : Record) : Json :=
  let head : List (String × Json) := [("ts", time), ("level", r.level.name),
    ("logger", r.logger), ("msg", r.message)]
  let all := r.visible.toJson.foldl (fun acc (name, v) => Entries.putNew name v acc)
    (Entries.putAll head r.context.toJson)
  .obj (match r.fault with
    | some text => Entries.put "err" (.str text) all
    | none => all)

def Record.jsonLine (time : String) (r : Record) : String := (r.toJson time).write .canonical

/-- The fields of the context that are written for people. -/
def contextNames : List String := ["trace_id", "component", "service", "selector"]

def fieldText (e : String × FieldValue) : String := e.1 ++ "=" ++ e.2.text

/-- The context of an entry, as it is written for people. -/
def Record.contextText (r : Record) : String :=
  " ".intercalate (contextNames.filterMap fun name =>
    match r.context.lookup name with
    | none => none
    | some v => if v.isNull then none else some (fieldText (name, v)))

/-- The entry's own fields, as they are written for people. -/
def Record.fieldsText (r : Record) : String :=
  " ".intercalate ((r.visible.filter fun e => !Entries.has e.1 r.context).map fieldText)

/-- The name of the level, at least five wide. -/
def levelText (color : Bool) (l : Level) : String :=
  let text := String.ofList (l.name.toList ++ List.replicate (5 - l.name.length) ' ')
  if color then l.color ++ text ++ Level.plain else text

/-- An entry as a line for people. A fault stands on lines of its own. -/
def Record.textLine (color : Bool) (time : String) (r : Record) : String :=
  let context := r.contextText
  let fields := r.fieldsText
  time ++ " | " ++ levelText color r.level ++ " | " ++ r.logger ++
    (if context.isEmpty then "" else " | " ++ context) ++
    (if fields.isEmpty then "" else " " ++ fields) ++ " | " ++ r.message ++
    (match r.fault with
      | some text => "\n" ++ text
      | none => "")

/-! ### Contexts -/

/-- The context of entries, with those to return to. -/
structure Context where
  fields : Fields := []
  outer : List Fields := []

namespace Context

def bind (new : Fields) (c : Context) : Context := { c with fields := Entries.putAll c.fields new }

/-- Drops fields. -/
def unbind (names : List String) (c : Context) : Context :=
  { c with fields := names.foldl (fun acc name => Entries.erase name acc) c.fields }

def clear (c : Context) : Context := { c with fields := [] }

def enter (trace : FieldValue) (c : Context) : Context :=
  ⟨Entries.put "trace_id" trace c.fields, c.fields :: c.outer⟩

def leave (c : Context) : Context :=
  match c.outer with
  | fields :: outer => ⟨fields, outer⟩
  | [] => c

/-- A scope leaves no trace. -/
theorem leave_enter (trace : FieldValue) (c : Context) : (c.enter trace).leave = c := rfl

end Context

end FeltRelay.Journal
