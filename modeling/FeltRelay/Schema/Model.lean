import FeltRelay.Schema.Ty

/-!
# Models

A model holds the declarations of a schema in order: messages with their fields, enumerations with
their variants, services with their methods. The order of fields and variants gives wire positions
their meaning; the order of declarations does not, and `Model.same` leaves it out of account.
-/

namespace FeltRelay.Schema

structure Field where
  name : String
  type : Ty
deriving DecidableEq, Repr, Inhabited

/-- A message: its fields in wire order. -/
structure Message where
  name : String
  fields : List Field
deriving DecidableEq, Repr, Inhabited

/-- An enumeration: its variants in the order of their indices. -/
structure Enumeration where
  name : String
  variants : List String
deriving DecidableEq, Repr, Inhabited

structure Method where
  name : String
  /-- The short string that a request is raised with. -/
  selector : String
  /-- The path segment of a request. -/
  path : String
  /-- The message type of the argument. -/
  request : String
  /-- The message type of the result. -/
  response : String
deriving DecidableEq, Repr, Inhabited

/-- A service: its methods in declared order. -/
structure Service where
  name : String
  methods : List Method
deriving DecidableEq, Repr, Inhabited

structure Model where
  package : Option String
  messages : List Message
  enums : List Enumeration
  services : List Service
deriving DecidableEq, Repr, Inhabited

def Message.fieldNames (m : Message) : List String := m.fields.map (·.name)

/-- The index of a variant: that of its first occurrence. -/
def Enumeration.indexOf? (e : Enumeration) (variant : String) : Option Nat :=
  e.variants.findIdx? (· = variant)

namespace Model

def message? (m : Model) (name : String) : Option Message := m.messages.find? (·.name = name)

def enum? (m : Model) (name : String) : Option Enumeration := m.enums.find? (·.name = name)

def service? (m : Model) (name : String) : Option Service := m.services.find? (·.name = name)

/-- The message of a name, or why there is none. -/
def message (m : Model) (name : String) : Except Failure Message :=
  match m.message? name with
  | some spec => .ok spec
  | none => .error (.unknownMessage name)

/-- The enumeration of a name, or why there is none. -/
def enum (m : Model) (name : String) : Except Failure Enumeration :=
  match m.enum? name with
  | some spec => .ok spec
  | none => .error (.unknownEnum name)

/-- The type of a name: a message, an enumeration or a scalar kind, looked for in this order. -/
def typeOf (m : Model) (name : String) : Except Failure Ty :=
  if (m.message? name).isSome then .ok (.message name)
  else if (m.enum? name).isSome then .ok (.enum name)
  else match Scalar.ofName? name with
    | some s => .ok (.scalar s)
    | none => .error (.unknownType name)

/-- All methods with the names of their services, in declared order. -/
def methods (m : Model) : List (String × Method) :=
  m.services.flatMap fun s => s.methods.map fun method => (s.name, method)

/-- The method that a request with a selector is for: the first one that has it. -/
def findSelector (m : Model) (selector : String) : Except Failure (String × Method) :=
  match m.methods.find? (·.2.selector = selector) with
  | some found => .ok found
  | none => .error (.methodNotFound selector none)

/-- The method of a service that goes by a name, a selector or a path. A name counts before the
other two. -/
def findMethod (m : Model) (service method : String) : Except Failure Method :=
  let found := (m.service? service).bind fun s =>
    (s.methods.find? (·.name = method)).or
      (s.methods.find? fun x => x.selector = method || x.path = method)
  match found with
  | some x => .ok x
  | none => .error (.methodNotFound method (some service))

/-- Whether two lists of declarations hold the same ones, in whatever order. Names are distinct
within a list. -/
def sameDeclarations {α : Type} [DecidableEq α] (xs ys : List α) : Bool :=
  xs.all (ys.contains ·) && ys.all (xs.contains ·)

def sameService (s t : Service) : Bool :=
  s.name = t.name && sameDeclarations s.methods t.methods

/-- Whether two models declare the same: the order of messages, enumerations, services and methods
does not matter, the order of fields and variants does. -/
def same (m n : Model) : Bool :=
  m.package = n.package && sameDeclarations m.messages n.messages &&
    sameDeclarations m.enums n.enums &&
    m.services.all (fun s => n.services.any (sameService s)) &&
    n.services.all (fun s => m.services.any (sameService s))

end Model

end FeltRelay.Schema
