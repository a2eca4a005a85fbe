import FeltRelay.Schema.Definitions.Token

/-!
# Declarations as written

What a definitions text declares, before references are resolved: fields with the names of their
types, values of enumerations with their numbers, methods with the names of their messages.
-/

namespace FeltRelay.Schema.Definitions

/-- What stands before the type of a field. -/
inductive Label where
  | optional | repeated | required
deriving DecidableEq, Repr, Inhabited

def Label.ofWord? : String → Option Label
  | "optional" => some optional
  | "repeated" => some repeated
  | "required" => some required
  | _ => none

structure FieldDecl where
  name : String
  label : Option Label
  typeName : String
  number : Int
  position : Position
deriving DecidableEq, Repr, Inhabited

/-- A message, with the names of the messages around it and its own as its scope. -/
structure MessageDecl where
  scope : List String
  fields : List FieldDecl
deriving DecidableEq, Repr, Inhabited

/-- An enumeration, with the names of the messages around it. -/
structure EnumDecl where
  scope : List String
  name : String
  values : List (String × Int)
deriving DecidableEq, Repr, Inhabited

structure MethodDecl where
  name : String
  request : String
  response : String
deriving DecidableEq, Repr, Inhabited

structure ServiceDecl where
  name : String
  methods : List MethodDecl
deriving DecidableEq, Repr, Inhabited

/-- All declarations of a text. Messages stand before those nested in them. -/
structure Declarations where
  package : Option String := none
  messages : List MessageDecl := []
  enums : List EnumDecl := []
  services : List ServiceDecl := []
deriving DecidableEq, Repr, Inhabited

def dotted (names : List String) : String := ".".intercalate names

/-- A name without its dots. -/
def flattened (name : String) : String := String.ofList (name.toList.filter (· ≠ '.'))

def MessageDecl.fullName (m : MessageDecl) : String := dotted m.scope

def EnumDecl.fullName (e : EnumDecl) : String := dotted (e.scope ++ [e.name])

end FeltRelay.Schema.Definitions
