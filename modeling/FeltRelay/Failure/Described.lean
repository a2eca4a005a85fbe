import FeltRelay.Json.Table

/-!
# Described failures

A failure can be described: by its kind, and by arguments that say what it is about. Arguments are
values of any form, given in order or by name. Message and details come out as for a failure that
the library found itself.
-/

namespace FeltRelay.Failure

open FeltRelay.Text

/-- What a failure of some kind is told. -/
structure Parameters where
  /-- What may be told in order. -/
  ordered : List String
  /-- What has to be told by name. -/
  byName : List String
  /-- What has to be told at all. -/
  needed : List String

/-- What a failure of a kind is told. -/
def Kind.parameters : Kind → Parameters
  | .parse => ⟨["message"], ["line", "column"], ["message"]⟩
  | .unsupportedField => ⟨[], ["owner", "name", "kind"], ["owner", "name", "kind"]⟩
  | .duplicateType => ⟨["name"], [], ["name"]⟩
  | .duplicateMember => ⟨[], ["owner", "name"], ["owner", "name"]⟩
  | .unknownReference => ⟨[], ["owner", "reference"], ["owner", "reference"]⟩
  | .selectorTooLong => ⟨["selector", "limit"], [], ["selector", "limit"]⟩
  | .duplicateSelector => ⟨["selector"], [], ["selector"]⟩
  | .schemaDrift => ⟨[], ["expected", "actual"], ["expected", "actual"]⟩
  | .methodNotFound => ⟨["selector"], ["service"], ["selector"]⟩
  | .serverNotConfigured => ⟨["service"], [], ["service"]⟩
  | .transport => ⟨["message"], ["kind", "url"], ["message", "kind"]⟩
  | .oracleRejected => ⟨["message"], ["payload", "status_code"], ["message"]⟩
  | .dispatchFailed => ⟨[], ["selector", "state", "cause"], ["selector", "state", "cause"]⟩
  | k =>
    if k.isWithin .encode then ⟨["message"], ["path", "details"], ["message"]⟩
    else if k.isWithin .decode then ⟨["message"], ["offset", "details"], ["message"]⟩
    else ⟨["message"], ["details"], []⟩

/-- The arguments by name. Each has to be known and given once, and none that is needed may be
missing. -/
def Parameters.bind? (p : Parameters) (inOrder : List Json) (named : List (String × Json)) :
    Option (List (String × Json)) :=
  let first := p.ordered.zip inOrder
  let all := first ++ named
  if inOrder.length ≤ p.ordered.length ∧ all.all (fun e => (p.ordered ++ p.byName).contains e.1) ∧
      !named.any (fun e => Entries.has e.1 first) ∧ p.needed.all (Entries.has · all) then
    some all
  else none

structure Described where
  kind : Kind
  message : Json
  details : Json
deriving Inhabited

namespace Described

/-- Code, message and details as an object. -/
def toJson (d : Described) : Json :=
  .obj [("code", d.kind.code), ("message", d.message), ("details", d.details)]

def line (d : Described) : String := d.kind.code ++ ": " ++ d.message.plainText

/-- What is taken for an argument that is not given. -/
def defaults : List (String × Json) :=
  [("message", Wording.anything), ("line", .int 0), ("column", .int 0), ("path", "$"),
    ("offset", .int 0)]

/-- A place as the only detail, with further details written over it. -/
def placed (name : String) (place further : Json) : Attempt Json := do
  let entries ← if further.isEmpty then pure [] else further.entries
  return .obj (Entries.putAll [(name, place)] (entries.map fun (k, v) => (k.plainText, v)))

/-- The failure of a kind with arguments by name, its details in full. A failed call has a cause. -/
def draft (kind : Kind) (given : List (String × Json)) (cause : Option Described) :
    Attempt Described := do
  let value (name : String) : Json := ((given ++ defaults).lookup name).getD .null
  let plain (name : String) : String := (value name).plainText
  let shown (name : String) : String := (value name).shown
  let about (message : Json) (names : List String) : Attempt Described :=
    .ok ⟨kind, message, .obj (names.map fun name => (name, value name))⟩
  match kind with
  | .parse =>
    about (Wording.atPosition (plain "line") (plain "column") (plain "message"))
      ["line", "column"]
  | .unsupportedField =>
    about (Wording.unsupportedField (plain "owner") (plain "name") (plain "kind"))
      ["owner", "name", "kind"]
  | .duplicateType => about (Wording.duplicateType (shown "name")) ["name"]
  | .duplicateMember =>
    about (Wording.duplicateMember (plain "owner") (shown "name")) ["owner", "name"]
  | .unknownReference =>
    about (Wording.unknownReference (plain "owner") (shown "reference")) ["owner", "reference"]
  | .selectorTooLong =>
    about (Wording.selectorTooLong (shown "selector") (plain "limit")) ["selector", "limit"]
  | .duplicateSelector => about (Wording.duplicateSelector (shown "selector")) ["selector"]
  | .schemaDrift => about Wording.schemaDrift ["expected", "actual"]
  | .methodNotFound =>
    let service := if (value "service").isEmpty then none else some (shown "service")
    about (Wording.methodNotFound (shown "selector") service) ["selector", "service"]
  | .serverNotConfigured => about (Wording.serverNotConfigured (shown "service")) ["service"]
  | .transport => about (value "message") ["kind", "url"]
  | .oracleRejected => about (value "message") ["payload", "status_code"]
  | .dispatchFailed =>
    let some c := cause | throw .unfit
    return ⟨kind,
      Wording.dispatchFailed (shown "selector") (plain "state") c.message.plainText,
      .obj [("selector", value "selector"), ("state", value "state"), ("kind", c.kind.code),
        ("cause", c.details)]⟩
  | k =>
    if k.isWithin .encode then
      return ⟨k, Wording.atPath (plain "path") (plain "message"),
        ← placed "path" (value "path") (value "details")⟩
    else if k.isWithin .decode then
      return ⟨k, Wording.atElement (plain "offset") (plain "message"),
        ← placed "offset" (value "offset") (value "details")⟩
    else
      let details := value "details"
      return ⟨k, value "message", if details.isEmpty then .obj [] else details⟩

/-- The failure with its details abbreviated. -/
def abridged (d : Described) : Described := { d with details := abbreviate textLimit d.details }

/-- The failure of a kind with arguments by name. -/
def ofNamed (kind : Kind) (given : List (String × Json)) (cause : Option Described) :
    Attempt Described := (draft kind given cause).map abridged

/-- The failure of a kind with arguments in order and by name. -/
def ofArguments (kind : Kind) (inOrder : List Json) (named : List (String × Json))
    (cause : Option Described) : Attempt Described :=
  match kind.parameters.bind? inOrder named with
  | some given => ofNamed kind given cause
  | none => .error .wrongKind

end Described

end FeltRelay.Failure
