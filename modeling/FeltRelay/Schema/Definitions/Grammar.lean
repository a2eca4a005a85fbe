import FeltRelay.Schema.Definitions.Declaration

/-!
# The grammar of definitions

Declarations are read from the tokens of a text. Imports, options, reserved names and extension
ranges are skipped. Constructs without a place on the wire are refused: `oneof`, `map`,
floating-point fields and streaming methods.
-/

namespace FeltRelay.Schema.Definitions

open FeltRelay.Text

/-- The tokens that are left, and the place that is named if they run out. -/
structure Cursor where
  rest : List Token
  last : Position

abbrev Reader := StateT Cursor (Except Failure)

def failAt {α : Type} (t : Token) (text : String) : Reader α :=
  throw (.parseError text t.position.line t.position.column)

/-- The next token, left in place. -/
def peek? : Reader (Option Token) := return (← get).rest.head?

def next : Reader Token := do
  let cursor ← get
  match cursor.rest with
  | t :: rest =>
    set { cursor with rest }
    return t
  | [] => throw (.parseError "unexpected end of definitions" cursor.last.line cursor.last.column)

/-- Takes the next token, which has to be a certain word or mark. -/
def word (text : String) : Reader Unit := do
  let t ← next
  if t.text ≠ text then failAt t ("expected " ++ quoted text ++ ", got " ++ quoted t.text)

/-- Takes the next token, which has to be of a kind. -/
def ofKind (kind : TokenKind) : Reader Token := do
  let t ← next
  if t.kind ≠ kind then failAt t ("expected " ++ quoted kind.label ++ ", got " ++ quoted t.text)
  return t

/-- Takes the next token if it is a certain word or mark. -/
def accept (text : String) : Reader Bool := do
  match (← get).rest with
  | t :: rest =>
    if t.text = text then
      modify ({ · with rest })
      return true
    else return false
  | [] => return false

/-- How many tokens are left; no reading takes more steps. -/
def remaining : Reader Nat := return (← get).rest.length

/-! ### What is skipped -/

/-- Skips up to a semicolon outside brackets; `depth` counts the open ones. -/
def skipFrom : Nat → Int → Reader Unit
  | 0, _ => return ()
  | fuel + 1, depth => do
    let t ← next
    if t.text = "[" ∨ t.text = "\x7b" ∨ t.text = "(" then skipFrom fuel (depth + 1)
    else if t.text = "]" ∨ t.text = "\x7d" ∨ t.text = ")" then skipFrom fuel (depth - 1)
    else if t.text = ";" ∧ depth ≤ 0 then return ()
    else skipFrom fuel depth

def skipStatement : Reader Unit := do skipFrom ((← remaining) + 1) 0

/-- Skips up to the bracket that closes `depth` open ones. -/
def skipOptionsFrom : Nat → Nat → Reader Unit
  | 0, _ => return ()
  | _, 0 => return ()
  | fuel + 1, depth + 1 => do
    let t ← next
    if t.text = "[" then skipOptionsFrom fuel (depth + 2)
    else if t.text = "]" then skipOptionsFrom fuel depth
    else skipOptionsFrom fuel (depth + 1)

/-- Skips the options of a field, if there are any. -/
def skipOptions : Reader Unit := do
  if ← accept "[" then skipOptionsFrom ((← remaining) + 2) 1

/-! ### Declarations -/

/-- A field of a message, its first token read. -/
def field (owner : String) (first : Token) : Reader FieldDecl := do
  let label := Label.ofWord? first.text
  let type ← if label.isSome then ofKind .name else pure first
  if type.text = "float" ∨ type.text = "double" then
    let name := ((← peek?).map (·.text)).getD "?"
    throw (.unsupportedField owner name type.text)
  let name ← ofKind .name
  word "="
  let number ← ofKind .number
  skipOptions
  word ";"
  return ⟨name.text, label, type.text, number.value, name.position⟩

def enumValues (owner : String) : Nat → Reader (List (String × Int))
  | 0 => return []
  | fuel + 1 => do
    if ← accept "\x7d" then return []
    let t ← next
    if t.text = "option" ∨ t.text = "reserved" then
      skipStatement
      enumValues owner fuel
    else if t.text = ";" then enumValues owner fuel
    else if t.kind ≠ .name then failAt t ("unexpected " ++ quoted t.text ++ " in enum " ++ owner)
    else
      word "="
      let number ← ofKind .number
      skipOptions
      word ";"
      return (t.text, number.value) :: (← enumValues owner fuel)

/-- An enumeration, its keyword read. -/
def enum (scope : List String) : Reader EnumDecl := do
  let name ← ofKind .name
  word "\x7b"
  let values ← enumValues (dotted (scope ++ [name.text])) ((← remaining) + 1)
  return ⟨scope, name.text, values⟩

structure Body where
  fields : List FieldDecl := []
  messages : List MessageDecl := []
  enums : List EnumDecl := []

/-- Refuses a group of alternatives, its keyword read. -/
def refuseOneof (owner : String) : Reader Body := do
  let name ← ofKind .name
  throw (.unsupportedField owner name.text "oneof")

/-- Refuses a map field, its keyword read. -/
def refuseMap (owner : String) : Reader Body := do
  word "<"
  let key ← ofKind .name
  word ","
  let value ← ofKind .name
  word ">"
  let name ← ofKind .name
  throw (.unsupportedField owner name.text ("map<" ++ key.text ++ ", " ++ value.text ++ ">"))

/-- The name of a message, its keyword read. -/
def messageName : Reader String := do
  let name ← ofKind .name
  if name.text.toList.contains '.' then failAt name "message names cannot be dotted"
  word "\x7b"
  return name.text

/-- The declarations that follow in the body of a message. -/
def messageBody : Nat → List String → Reader Body
  | 0, _ => return {}
  | fuel + 1, scope => do
    if ← accept "\x7d" then return {}
    let owner := dotted scope
    let t ← next
    if t.text = "message" then
      let inner := scope ++ [← messageName]
      let nested ← messageBody fuel inner
      let body ← messageBody fuel scope
      return { body with
        messages := ⟨inner, nested.fields⟩ :: nested.messages ++ body.messages
        enums := nested.enums ++ body.enums }
    else if t.text = "enum" then
      let e ← enum scope
      let body ← messageBody fuel scope
      return { body with enums := e :: body.enums }
    else if t.text = "option" ∨ t.text = "reserved" ∨ t.text = "extensions" then
      skipStatement
      messageBody fuel scope
    else if t.text = ";" then messageBody fuel scope
    else if t.text = "oneof" then refuseOneof owner
    else if t.text = "map" then refuseMap owner
    else if t.kind = .name then
      let f ← field owner t
      let body ← messageBody fuel scope
      return { body with fields := f :: body.fields }
    else failAt t ("unexpected " ++ quoted t.text ++ " in message " ++ owner)

/-- A message type of a method, between parentheses. -/
def methodType (service method : String) : Reader String := do
  word "("
  let t ← ofKind .name
  if t.text = "stream" then throw (.unsupportedField service method "streaming rpc")
  word ")"
  return t.text

/-- Skips the statements between the braces after a method. -/
def skipStatements : Nat → Reader Unit
  | 0 => return ()
  | fuel + 1 => do
    if ← accept "\x7d" then return ()
    skipStatement
    skipStatements fuel

/-- A method, its keyword read. -/
def method (service : String) : Reader MethodDecl := do
  let name ← ofKind .name
  let request ← methodType service name.text
  word "returns"
  let response ← methodType service name.text
  if ← accept "\x7b" then skipStatements ((← remaining) + 1) else word ";"
  return ⟨name.text, request, response⟩

def methods (service : String) : Nat → Reader (List MethodDecl)
  | 0 => return []
  | fuel + 1 => do
    if ← accept "\x7d" then return []
    let t ← next
    if t.text = "option" then
      skipStatement
      methods service fuel
    else if t.text = ";" then methods service fuel
    else if t.text ≠ "rpc" then failAt t ("expected 'rpc', got " ++ quoted t.text)
    else
      let m ← method service
      return m :: (← methods service fuel)

/-- A service, its keyword read. -/
def service : Reader ServiceDecl := do
  let name ← ofKind .name
  word "\x7b"
  return ⟨name.text, ← methods name.text ((← remaining) + 1)⟩

def topLevel : Nat → Declarations → Reader Declarations
  | 0, acc => return acc
  | fuel + 1, acc => do
    if (← peek?).isNone then return acc
    let t ← next
    if t.text = "syntax" then
      word "="
      let _ ← ofKind .string
      word ";"
      topLevel fuel acc
    else if t.text = "package" then
      let name ← ofKind .name
      word ";"
      let name := String.ofList (name.text.toList.dropWhile (· = '.'))
      topLevel fuel { acc with package := some name }
    else if t.text = "import" ∨ t.text = "option" then
      skipStatement
      topLevel fuel acc
    else if t.text = "message" then
      let scope := [← messageName]
      let body ← messageBody ((← remaining) + 1) scope
      topLevel fuel { acc with
        messages := acc.messages ++ ⟨scope, body.fields⟩ :: body.messages
        enums := acc.enums ++ body.enums }
    else if t.text = "enum" then
      let e ← enum []
      topLevel fuel { acc with enums := acc.enums ++ [e] }
    else if t.text = "service" then
      let s ← service
      topLevel fuel { acc with services := acc.services ++ [s] }
    else if t.text = ";" then topLevel fuel acc
    else failAt t ("unexpected " ++ quoted t.text ++ " at top level")

def Declarations.ofTokens (tokens : List Token) : Except Failure Declarations :=
  let last := (tokens.getLast?.map (·.position)).getD ⟨1, 1⟩
  (topLevel (tokens.length + 1) {}).run' ⟨tokens, last⟩

def Declarations.ofText (text : String) : Except Failure Declarations := do
  Declarations.ofTokens (← tokenize text)

end FeltRelay.Schema.Definitions
