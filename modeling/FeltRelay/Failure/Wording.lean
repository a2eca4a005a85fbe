/-!
# Wording

The fixed texts of failures. What a text speaks of is given in the form in which it is to be shown.
-/

namespace FeltRelay.Failure.Wording

/-! ### Places -/

def atPath (path text : String) : String := path ++ ": " ++ text

def atElement (offset text : String) : String := text ++ " (at element " ++ offset ++ ")"

def atPosition (line column text : String) : String :=
  text ++ " (line " ++ line ++ ", column " ++ column ++ ")"

/-! ### Kinds -/

/-- The text of a failure that nothing is said about. -/
def anything : String := "oracle bridge error"

def unsupportedField (owner name kind : String) : String :=
  owner ++ "." ++ name ++ ": " ++ kind ++ " is not supported"

def duplicateType (name : String) : String := "type " ++ name ++ " declared more than once"

def duplicateMember (owner name : String) : String :=
  owner ++ ": field/variant " ++ name ++ " declared more than once"

def unknownReference (owner reference : String) : String :=
  owner ++ ": reference to undeclared type " ++ reference

def selectorTooLong (selector limit : String) : String :=
  "selector " ++ selector ++ " exceeds " ++ limit ++ " bytes"

def duplicateSelector (selector : String) : String :=
  "selector " ++ selector ++ " is used by more than one method"

def schemaDrift : String :=
  "schema hash of the lock artifact does not match the generated VM code"

def methodNotFound (selector : String) : (service : Option String) → String
  | some service => "no method for selector " ++ selector ++ " in service " ++ service
  | none => "no method for selector " ++ selector

def serverNotConfigured (service : String) : String :=
  "no server address configured for service " ++ service

def dispatchFailed (selector state cause : String) : String :=
  "oracle call " ++ selector ++ " failed in state " ++ state ++ ": " ++ cause

end FeltRelay.Failure.Wording
