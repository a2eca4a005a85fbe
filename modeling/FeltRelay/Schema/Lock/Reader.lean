import FeltRelay.Document
import FeltRelay.Schema.Containment
import FeltRelay.Schema.Definitions
import FeltRelay.Schema.Lock
import FeltRelay.Schema.Lock.Form

/-!
# Reading locks

A lock document is accepted if it is JSON, has the form of a lock, names only types that it
declares, contains no message within itself, and states the hash of its own contents. The first
check that fails is reported.
-/

namespace FeltRelay.Schema

namespace Lock

/-! ### The form of a lock -/

def descriptorFaults : Json → List (List Step)
  | .obj [(tag, v)] =>
    if tag = "scalar" ∨ tag = "message" ∨ tag = "enum" then
      (textFaults v).map (.member tag :: ·)
    else if tag = "optional" ∨ tag = "array" then (descriptorFaults v).map (.member tag :: ·)
    else [[]]
  | _ => [[]]

def fieldFaults : Json → List (List Step)
  | .obj ms =>
    nameFaults ["name", "type"] ["name", "type"] ms ++ memberFaults textFaults "name" ms ++
      memberFaults descriptorFaults "type" ms
  | _ => [[]]

/-- The faults of a message: a list of fields. -/
def messageFaults : Json → List (List Step)
  | .arr items => itemFaults fieldFaults items
  | _ => [[]]

/-- The faults of an enumeration: a list of texts. -/
def enumFaults : Json → List (List Step)
  | .arr items => itemFaults textFaults items
  | _ => [[]]

def methodMembers : List String := ["selector", "path", "request", "response"]

def methodFaults : Json → List (List Step)
  | .obj ms =>
    nameFaults methodMembers methodMembers ms ++
      methodMembers.flatMap fun name => memberFaults textFaults name ms
  | _ => [[]]

/-- The faults of an object whose members all have one form. -/
def tableFaults (faults : Json → List (List Step)) : Json → List (List Step)
  | .obj ms => everyMemberFaults faults ms
  | _ => [[]]

/-- The version has to be the number one. -/
def versionFaults : Json → List (List Step)
  | .int i => if i = lockVersion then [] else [[]]
  | .num x => if Decimal.toInt? x = some lockVersion then [] else [[]]
  | _ => [[]]

/-- The package is a text or null. -/
def packageFaults : Json → List (List Step)
  | .str _ | .null => []
  | _ => [[]]

/-- The form of a hash: `0x` and 64 small hexadecimal digits. A line feed may follow. -/
def isHash (s : String) : Bool :=
  match s.toList with
  | '0' :: 'x' :: rest =>
    let digits := rest.take 64
    let after := rest.drop 64
    digits.length = 64 && digits.all (fun c => Text.isHexDigit c && !c.isUpper) &&
      (after.isEmpty || after = ['\n'])
  | _ => false

def hashFaults : Json → List (List Step)
  | .str s => if isHash s then [] else [[]]
  | _ => [[]]

def requiredMembers : List String := ["version", "schema_hash", "messages", "enums", "services"]

def faults : Json → List (List Step)
  | .obj ms =>
    nameFaults requiredMembers ("package" :: requiredMembers) ms ++
      memberFaults versionFaults "version" ms ++ memberFaults packageFaults "package" ms ++
      memberFaults hashFaults "schema_hash" ms ++
      memberFaults (tableFaults messageFaults) "messages" ms ++
      memberFaults (tableFaults enumFaults) "enums" ms ++
      memberFaults (tableFaults (tableFaults methodFaults)) "services" ms
  | _ => [[]]

/-! ### The model of a lock -/

/-- The text of a member; a document of the right form has it. -/
def textAt (name : String) (v : Json) : String :=
  match v.member? name with
  | some (.str s) => s
  | _ => ""

def items : Json → List Json
  | .arr vs => vs
  | _ => []

def table (name : String) (doc : Json) : List (String × Json) :=
  ((doc.member? name).map Json.members).getD []

def fieldOf (v : Json) : Except Failure Field := do
  return ⟨textAt "name" v, ← Ty.ofDescriptor ((v.member? "type").getD .null)⟩

def messageOf (e : String × Json) : Except Failure Message := do
  return ⟨e.1, ← (items e.2).mapM fieldOf⟩

def enumOf (e : String × Json) : Enumeration :=
  ⟨e.1, (items e.2).filterMap fun v => match v with
    | .str s => some s
    | _ => none⟩

def methodOf (e : String × Json) : Method :=
  ⟨e.1, textAt "selector" e.2, textAt "path" e.2, textAt "request" e.2, textAt "response" e.2⟩

def serviceOf (e : String × Json) : Service := ⟨e.1, e.2.members.map methodOf⟩

/-- The model of a document that has the form of a lock. -/
def modelOf (doc : Json) : Except Failure Model := do
  let messages ← (table "messages" doc).mapM messageOf
  let package := match doc.member? "package" with
    | some (.str s) => some s
    | _ => none
  return ⟨package, messages, (table "enums" doc).map enumOf, (table "services" doc).map serviceOf⟩

/-- Refuses a type that the model does not declare. -/
def checkTy (m : Model) (owner : String) : Ty → Except Failure Unit
  | .optional t | .array t => checkTy m owner t
  | .message n =>
    if (m.message? n).isSome then .ok ()
    else .error (.lockLoad (owner ++ ": unknown message " ++ Text.quoted n) [])
  | .enum n =>
    if (m.enum? n).isSome then .ok ()
    else .error (.lockLoad (owner ++ ": unknown enum " ++ Text.quoted n) [])
  | .scalar _ => .ok ()

/-- Refuses a model that refers to what it does not declare. -/
def checkReferences (m : Model) : Except Failure Unit := do
  for spec in m.messages do
    for f in spec.fields do
      checkTy m (spec.name ++ "." ++ f.name) f.type
  for (service, method) in m.methods do
    checkTy m (service ++ "." ++ method.name) (.message method.request)
    checkTy m (service ++ "." ++ method.name) (.message method.response)

/-- A fault of the model as a fault of its document. -/
def invalid {α : Type} : Except Failure α → Except Failure α
  | .error f => .error (.lockLoad ("lock artifact invalid: " ++ f.message) f.details)
  | r => r

def ofText (text : String) : Except Failure Lock := do
  let some doc := Json.read? text
    | throw (.lockLoad "lock artifact is not valid JSON: *" [])
  if let some place := shallowest? (faults doc) then
    let path := pathText place
    throw (.lockLoad ("lock artifact invalid at " ++ path ++ ": *") [("path", path)])
  let model ← invalid (modelOf doc)
  checkReferences model
  invalid model.checkContainment
  let stored := textAt "schema_hash" doc
  if stored ≠ model.hash then throw (.lockCorrupted stored model.hash)
  return ⟨model, stored, (doc.member? "version").getD .null⟩

/-- The lock in a file. Its failures tell the path. -/
def ofFile (path : String) (contents : Contents) : Attempt Lock := do
  match ofText (← Document.text .lock path contents) with
  | .ok l => return l
  | .error f => throw (.failure (f.inFile path))

end Lock

def Model.ofFile (path : String) (contents : Contents) : Attempt Model := do
  Attempt.ofExcept (Model.ofText (← Document.text .definitions path contents))

end FeltRelay.Schema
