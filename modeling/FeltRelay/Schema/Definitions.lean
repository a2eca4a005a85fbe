import FeltRelay.Schema.Containment
import FeltRelay.Schema.Definitions.Grammar
import FeltRelay.Schema.Naming

/-!
# From declarations to a model

References are resolved from the innermost scope outwards. A nested declaration gets the names
around it put in front of its own. `Model.ofText` reads a whole definitions text; of several faults
it reports the first, messages before enumerations before services, cycles last.
-/

namespace FeltRelay.Schema

open FeltRelay.Text Definitions

namespace Definitions

def scalarSpellings : List (String × Scalar) :=
  [("bool", .bool), ("uint32", .unsigned .w32), ("fixed32", .unsigned .w32),
    ("uint64", .unsigned .w64), ("fixed64", .unsigned .w64), ("int32", .signed .w32),
    ("sint32", .signed .w32), ("sfixed32", .signed .w32), ("int64", .signed .w64),
    ("sint64", .signed .w64), ("sfixed64", .signed .w64), ("string", .text), ("bytes", .bytes),
    ("ByteArray", .text), ("u8", .unsigned .w8), ("u16", .unsigned .w16), ("u32", .unsigned .w32),
    ("u64", .unsigned .w64), ("u128", .unsigned .w128), ("i8", .signed .w8), ("i16", .signed .w16),
    ("i32", .signed .w32), ("i64", .signed .w64), ("i128", .signed .w128), ("felt252", .felt)]

inductive Declared where
  | message | enum
deriving DecidableEq, Repr

structure Names where
  package : Option String
  declared : List (String × Declared)

/-- Adds a full name, unless it or its flattened form is taken. -/
def Names.add (names : List (String × Declared)) (fullName : String) (d : Declared) :
    Except Failure (List (String × Declared)) :=
  let flat := flattened fullName
  if names.any fun n => n.1 = fullName || flattened n.1 = flat then .error (.duplicateType flat)
  else .ok (names ++ [(fullName, d)])

def Names.ofDeclarations (d : Declarations) : Except Failure Names := do
  let all := d.messages.map (fun m => (m.fullName, Declared.message)) ++
    d.enums.map fun e => (e.fullName, Declared.enum)
  return ⟨d.package, ← all.foldlM (fun acc e => Names.add acc e.1 e.2) []⟩

/-- A reference without a leading dot and without the package in front. -/
def Names.localName (names : Names) (reference : String) : String :=
  let bare := reference.toList.dropWhile (· = '.')
  match names.package with
  | none => String.ofList bare
  | some package =>
    let lead := package.toList ++ ['.']
    if !package.isEmpty && lead.isPrefixOf bare then String.ofList (bare.drop lead.length)
    else String.ofList bare

/-- The scopes from the innermost outwards, ending with the empty one. -/
def enclosing (scope : List String) : List (List String) :=
  (List.range (scope.length + 1)).reverse.map scope.take

/-- The type that a reference made within a scope stands for. -/
def Names.resolve (names : Names) (reference : String) (scope : List String) (owner : String) :
    Except Failure Ty :=
  match scalarSpellings.lookup reference with
  | some s => .ok (.scalar s)
  | none =>
    let name := names.localName reference
    let found := (enclosing scope).findSome? fun around =>
      let fullName := dotted (around ++ [name])
      (names.declared.lookup fullName).map fun d => (d, flattened fullName)
    match found with
    | some (.message, flat) => .ok (.message flat)
    | some (.enum, flat) => .ok (.enum flat)
    | none => .error (.unknownReference owner reference)

def labelled : Option Label → Ty → Ty
  | some .repeated, t => .array t
  | some .optional, t => .optional t
  | _, t => t

/-- The fields of a message; `seen` holds the names and numbers of those before. -/
def fieldsOf (names : Names) (owner : String) (scope : List String) :
    List (String × Int) → List FieldDecl → Except Failure (List Field)
  | _, [] => .ok []
  | seen, f :: rest => do
    if seen.any (·.1 = f.name) then throw (.duplicateMember owner f.name)
    if seen.any (·.2 = f.number) then
      throw (.parseError
        (owner ++ ": field number " ++ integer f.number ++ " reused by " ++ quoted f.name)
        f.position.line f.position.column)
    let t ← names.resolve f.typeName scope owner
    let others ← fieldsOf names owner scope ((f.name, f.number) :: seen) rest
    return ⟨f.name, labelled f.label t⟩ :: others

def messageOf (names : Names) (m : MessageDecl) : Except Failure Message := do
  let owner := flattened m.fullName
  return ⟨owner, ← fieldsOf names owner m.scope [] m.fields⟩

def variantName (enum value : String) : String :=
  Naming.stripEnumName (Naming.upperCamel enum) (Naming.upperCamel value)

/-- The last word of a dotted name. -/
def lastWord (name : String) : String :=
  String.ofList ((name.toList.splitOnP (· = '.')).getLastD [])

/-- The variants of an enumeration. A value with a number that was used before is another name of
the same variant. -/
def variantsOf (owner enum : String) :
    List Int → List String → List (String × Int) → Except Failure (List String)
  | _, variants, [] => .ok variants
  | numbers, variants, (value, number) :: rest =>
    if numbers.contains number then variantsOf owner enum numbers variants rest
    else
      let variant := variantName enum value
      if variants.contains variant then .error (.duplicateMember owner variant)
      else variantsOf owner enum (number :: numbers) (variants ++ [variant]) rest

def enumOf (e : EnumDecl) : Except Failure Enumeration := do
  let owner := flattened e.fullName
  return ⟨owner, ← variantsOf owner (lastWord e.fullName) [] [] e.values⟩

/-- The message that a method's reference stands for. -/
def methodMessage (owner reference : String) : Ty → Except Failure String
  | .message name => .ok name
  | _ => .error (.unknownReference owner reference)

/-- The methods of a service; `selectors` holds those of all methods before. -/
def methodsOf (names : Names) (service : String) : List String → List Method → List MethodDecl →
    Except Failure (List String × List Method)
  | selectors, methods, [] => .ok (selectors, methods)
  | selectors, methods, m :: rest => do
    if methods.any (·.name = m.name) then throw (.duplicateMember service m.name)
    let owner := service ++ "." ++ m.name
    let request ← names.resolve m.request [] owner
    let response ← names.resolve m.response [] owner
    let request ← methodMessage owner m.request request
    let response ← methodMessage owner m.response response
    let selector := Naming.selectorOf m.name
    if selector.length > Naming.maxSelectorBytes then
      throw (.selectorTooLong selector Naming.maxSelectorBytes)
    if selectors.contains selector then throw (.duplicateSelector selector)
    methodsOf names service (selector :: selectors)
      (methods ++ [⟨m.name, selector, Naming.pathOf m.name, request, response⟩]) rest

def servicesOf (names : Names) : List String → List Service → List ServiceDecl →
    Except Failure (List Service)
  | _, services, [] => .ok services
  | selectors, services, s :: rest => do
    if services.any (·.name = s.name) || Entries.has s.name names.declared then
      throw (.duplicateType s.name)
    let (selectors, methods) ← methodsOf names s.name selectors [] s.methods
    servicesOf names selectors (services ++ [⟨s.name, methods⟩]) rest

end Definitions

namespace Model

def ofDeclarations (d : Declarations) : Except Failure Model := do
  let names ← Names.ofDeclarations d
  let messages ← d.messages.mapM (messageOf names)
  let enums ← d.enums.mapM enumOf
  let services ← servicesOf names [] [] d.services
  let model : Model := ⟨d.package, messages, enums, services⟩
  model.checkContainment
  return model

def ofText (text : String) : Except Failure Model := do
  ofDeclarations (← Declarations.ofText text)

/-- The model without declarations, which the empty text stands for. -/
def empty : Model := ⟨none, [], [], []⟩

example : (ofText "").toOption = some empty := by decide +kernel

end Model

end FeltRelay.Schema
