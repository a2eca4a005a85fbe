import FeltRelay.Failure.Abbreviate
import FeltRelay.Failure.Kind
import FeltRelay.Failure.Wording
import FeltRelay.Text.Quoted

/-!
# Failures

A failure says what kind it is, where it arose, what is wrong there, and in what context. The
message and the details are computed from these four. The wording of every failure with a fixed
text is in this module.
-/

namespace FeltRelay

open FeltRelay.Text

namespace Failure

inductive Place where
  | nowhere
  /-- At a value inside a JSON document, such as `$.x[2]`. -/
  | path (path : String)
  /-- At an element or event of a sequence. -/
  | element (offset : Int)
  /-- At a character of a text. -/
  | position (line column : Int)
  /-- In a file. -/
  | file (path : String)
deriving DecidableEq, Repr, Inhabited

def Place.details : Place → List (String × Json)
  | nowhere | file _ => []
  | path p => [("path", p)]
  | element n => [("offset", n)]
  | position line column => [("line", line), ("column", column)]

def Place.locate (text : String) : Place → String
  | nowhere | file _ => text
  | path p => Wording.atPath p text
  | element n => Wording.atElement (integer n) text
  | position line column => Wording.atPosition (integer line) (integer column) text

end Failure

structure Failure where
  kind : Failure.Kind
  /-- What is wrong, without the place. -/
  text : String
  place : Failure.Place := .nowhere
  /-- Further details. -/
  context : List (String × Json) := []
deriving Inhabited

namespace Failure

/-- What is wrong and where. -/
def message (f : Failure) : String := f.place.locate f.text

def code (f : Failure) : String := f.kind.code

/-- Place and context as members of an object, long values cut. The path of a file is added as it
is. -/
def details (f : Failure) : List (String × Json) :=
  let members := shortened (Entries.putAll f.place.details f.context)
  match f.place with
  | .file path => Entries.putNew "path" path members
  | _ => members

/-- Code, message and details as an object. -/
def toJson (f : Failure) : Json :=
  .obj [("code", f.code), ("message", f.message), ("details", .obj f.details)]

def line (f : Failure) : String := f.code ++ ": " ++ f.message

/-- A failure whose place lies some elements further on. -/
def moved (count : Int) (f : Failure) : Failure :=
  match f.place with
  | .element offset => { f with place := .element (offset + count) }
  | _ => f

/-- The failure as one of a file, unless it has a place of its own. -/
def inFile (path : String) (f : Failure) : Failure :=
  match f.place with
  | .nowhere => { f with place := .file path }
  | _ => f

/-! ### Definitions and models -/

def parseError (text : String) (line column : Int) : Failure :=
  ⟨.parse, text, .position line column, []⟩

/-- A construct of the definitions language that has no place on the wire. -/
def unsupportedField (owner name kind : String) : Failure :=
  ⟨.unsupportedField, Wording.unsupportedField owner name kind, .nowhere,
    [("owner", owner), ("name", name), ("kind", kind)]⟩

def duplicateType (name : String) : Failure :=
  ⟨.duplicateType, Wording.duplicateType (quoted name), .nowhere, [("name", name)]⟩

def duplicateMember (owner name : String) : Failure :=
  ⟨.duplicateMember, Wording.duplicateMember owner (quoted name), .nowhere,
    [("owner", owner), ("name", name)]⟩

/-- A reference to a type that is not declared. -/
def unknownReference (owner reference : String) : Failure :=
  ⟨.unknownReference, Wording.unknownReference owner (quoted reference), .nowhere,
    [("owner", owner), ("reference", reference)]⟩

def selectorTooLong (selector : String) (limit : Int) : Failure :=
  ⟨.selectorTooLong, Wording.selectorTooLong (quoted selector) (integer limit), .nowhere,
    [("selector", selector), ("limit", limit)]⟩

def duplicateSelector (selector : String) : Failure :=
  ⟨.duplicateSelector, Wording.duplicateSelector (quoted selector), .nowhere,
    [("selector", selector)]⟩

def unknownScalar (kind : String) : Failure :=
  ⟨.schema, "unknown scalar kind " ++ quoted kind, .nowhere, [("kind", kind)]⟩

/-- A type descriptor that is not an object of one member. -/
def malformedDescriptor (v : Json) : Failure :=
  ⟨.schema, "malformed type descriptor: " ++ v.shown, .nowhere, []⟩

def unknownDescriptor (tag : String) : Failure :=
  ⟨.schema, "unknown type descriptor tag " ++ quoted tag, .nowhere, []⟩

def unknownMessage (name : String) : Failure :=
  ⟨.schema, "unknown message type " ++ quoted name, .nowhere, [("name", name)]⟩

def unknownEnum (name : String) : Failure :=
  ⟨.schema, "unknown enum type " ++ quoted name, .nowhere, [("name", name)]⟩

def unknownType (name : String) : Failure :=
  ⟨.schema, "unknown type " ++ quoted name, .nowhere, [("name", name)]⟩

/-! ### Locks -/

def lockLoad (text : String) (context : List (String × Json)) : Failure :=
  ⟨.lockLoad, text, .nowhere, context⟩

/-- A lock document whose hash is not that of its contents. -/
def lockCorrupted (stored computed : String) : Failure :=
  ⟨.lockCorrupted, "lock artifact contents do not match its schema_hash", .nowhere,
    [("stored", stored), ("computed", computed)]⟩

/-- Generated code and lock do not belong together. -/
def schemaDrift (expected actual : String) : Failure :=
  ⟨.schemaDrift, Wording.schemaDrift, .nowhere, [("expected", expected), ("actual", actual)]⟩

/-! ### Codec -/

/-- A value does not have the shape of its type. -/
def typeMismatch (path text : String) : Failure := ⟨.typeMismatch, text, .path path, []⟩

/-- An integer is out of the range of its type. -/
def rangeOverflow (path text : String) (value : Int) : Failure :=
  ⟨.rangeOverflow, text, .path path, [("value", value)]⟩

/-- No integer has an element below a modulus of zero. -/
def emptyField (path : String) : Failure :=
  ⟨.emptyField, "a modulus of zero leaves no elements", .path path, []⟩

def truncated (offset : Int) (text : String) : Failure := ⟨.truncated, text, .element offset, []⟩

/-- An element has a value that its type does not allow. -/
def elementOutOfRange (offset : Int) (text : String) (context : List (String × Json)) : Failure :=
  ⟨.elementOutOfRange, text, .element offset, context⟩

/-! ### Routing and transport -/

def methodNotFound (selector : String) (service : Option String) : Failure :=
  let shown := (service.filter (!·.isEmpty)).map quoted
  ⟨.methodNotFound, Wording.methodNotFound (quoted selector) shown, .nowhere,
    [("selector", selector), ("service", .optional service)]⟩

def serverNotConfigured (service : String) : Failure :=
  ⟨.serverNotConfigured, Wording.serverNotConfigured (quoted service), .nowhere,
    [("service", service)]⟩

/-- A server could not be reached or did not answer well. -/
def transportError (text kind : String) (url : Option String) : Failure :=
  ⟨.transport, text, .nowhere, [("kind", kind), ("url", .optional url)]⟩

/-- A server answered, but with no result. -/
def oracleRejected (text : String) (payload : Json) (status : Option Int) : Failure :=
  ⟨.oracleRejected, text, .nowhere,
    [("payload", payload), ("status_code", (status.map Json.int).getD .null)]⟩

/-- A server answered with something that is not JSON. -/
def malformedResponse (url body : String) : Failure :=
  ⟨.malformedResponse, "response from " ++ url ++ " is not JSON", .nowhere,
    [("body", body), ("url", url)]⟩

/-- A call could not be completed: the state that was being entered, and why not. -/
def dispatchFailed (selector state : String) (cause : Failure) : Failure :=
  ⟨.dispatchFailed, Wording.dispatchFailed (quoted selector) state cause.message, .nowhere,
    [("selector", selector), ("state", state), ("kind", cause.code), ("cause", .obj cause.details)]⟩

/-! ### Settings and files -/

def outputFiles (directory : String) : Failure :=
  ⟨.outputFiles, "cannot write generated files to " ++ directory ++ ": *", .nowhere,
    [("out_dir", directory)]⟩

/-- A setting or a settings file is not valid. -/
def config (text : String) (context : List (String × Json)) : Failure :=
  ⟨.config, text, .nowhere, context⟩

end Failure

end FeltRelay
