import FeltRelay.Cairo.Identifier
import FeltRelay.Schema.Lock

/-!
# Declarations for the VM side

A model becomes a Cairo file: one struct per message with its fields in order, one enum per
enumeration with its variants in order, and one trait implementation per service whose functions
raise a request and read its answer. The derived serialisation of these types gives the same flat
elements that the codec reads. Optional fields use the generated `Maybe`, whose `Absent` has index
0 and whose `Present` has index 1.
-/

namespace FeltRelay.Cairo

open FeltRelay.Schema

inductive Ty where
  | named (name : String)
  | maybe (inner : Ty)
  | array (item : Ty)
deriving DecidableEq, Repr

/-- The built-in type of a scalar kind. -/
def scalarName : Scalar → String
  | .text | .bytes => "ByteArray"
  | s => s.name

/-- The type of the file that stands for a type of the model. -/
def Ty.ofSchema : Schema.Ty → Ty
  | .scalar s => named (scalarName s)
  | .message n | .enum n => named (identifier n)
  | .optional t => maybe (ofSchema t)
  | .array t => array (ofSchema t)

def Ty.text : Ty → String
  | named n => n
  | maybe t => "Maybe<" ++ t.text ++ ">"
  | array t => "Array<" ++ t.text ++ ">"

/-- A struct: its members in order. -/
structure Struct where
  name : String
  members : List (String × Ty)
deriving DecidableEq, Repr

/-- An enum without payloads: its variants in order. -/
structure Variants where
  name : String
  variants : List String
deriving DecidableEq, Repr

/-- A function that raises a request. -/
structure Function where
  name : String
  selector : String
  argument : String
  result : String
deriving DecidableEq, Repr

structure Implementation where
  name : String
  functions : List Function
deriving DecidableEq, Repr

structure File where
  /-- Whether `Maybe` is declared. -/
  maybe : Bool
  enums : List Variants
  structs : List Struct
  implementations : List Implementation
deriving DecidableEq, Repr

/-- Whether a field's type is optional, or an array whose items are. -/
def usesMaybe : Schema.Ty → Bool
  | .optional _ => true
  | .array t => usesMaybe t
  | _ => false

def Function.ofMethod (m : Method) : Function :=
  ⟨identifier m.selector, m.selector, identifier m.request, identifier m.response⟩

def File.ofModel (m : Model) : File where
  maybe := m.messages.any fun s => s.fields.any fun f => usesMaybe f.type
  enums := m.enums.map fun e => ⟨identifier e.name, e.variants.map identifier⟩
  structs := m.messages.map fun s =>
    ⟨identifier s.name, s.fields.map fun f => (identifier f.name, Ty.ofSchema f.type)⟩
  implementations := m.services.map fun s =>
    ⟨identifier s.name, s.methods.map Function.ofMethod⟩

/-! ### Text -/

/-- The declaration of `Maybe`. -/
def maybeText : String :=
  "/// Optional value with the bridge's presence layout: Absent = 0, Present = 1.\n" ++
  "#[derive(Drop, Serde)]\n" ++ "enum Maybe<T> \x7b\n" ++ "    Absent: (),\n" ++
  "    Present: T,\n" ++ "\x7d\n\n"

def Variants.text (e : Variants) : String :=
  "#[derive(Drop, Serde, PartialEq)]\nenum " ++ e.name ++ " \x7b\n" ++
    String.join (e.variants.map fun v => "    " ++ v ++ ",\n") ++ "\x7d\n\n"

def Struct.text (s : Struct) : String :=
  "#[derive(Drop, Serde)]\nstruct " ++ s.name ++ " \x7b\n" ++
    String.join (s.members.map fun m => "    " ++ m.1 ++ ": " ++ m.2.text ++ ",\n") ++
    "\x7d\n\n"

def Function.text (f : Function) : String :=
  "    fn " ++ f.name ++ "(arg: " ++ f.argument ++ ") -> " ++ f.result ++ " \x7b\n" ++
  "        let mut serialized = ArrayTrait::new();\n" ++
  "        arg.serialize(ref serialized);\n" ++
  "        let mut result = cheatcode::<'" ++ f.selector ++ "'>(serialized.span());\n" ++
  "        Serde::deserialize(ref result).unwrap()\n" ++
  "    \x7d\n"

def Implementation.text (i : Implementation) : String :=
  "#[generate_trait]\nimpl " ++ i.name ++ " of " ++ i.name ++ "Trait \x7b\n" ++
    String.join (i.functions.map Function.text) ++ "\x7d\n\n"

def File.text (f : File) : String :=
  (if f.maybe then maybeText else "") ++ String.join (f.enums.map Variants.text) ++
    String.join (f.structs.map Struct.text) ++
    String.join (f.implementations.map Implementation.text)

/-- The head of a file: where it comes from and the hash of its schema. -/
def header (origin hash : String) (element : Nat) : String :=
  "// This file was generated by oracle-bridge from " ++ origin ++ ". Do not edit by hand.\n" ++
  "use starknet::testing::cheatcode;\n\n" ++ "// " ++ hash ++ "\n" ++
  "const SCHEMA_HASH: felt252 = " ++ Text.hexadecimal element ++ ";\n\n"

/-- A text that ends with exactly one line feed. -/
def endLine (s : String) : String :=
  String.ofList (s.toList.reverse.dropWhile (· = '\n')).reverse ++ "\n"

/-- The first of the names that is there and not empty. -/
def originOf (source package : Option String) : String :=
  ([source, package].filterMap fun s => s.filter (!·.isEmpty)).headD "oracle definitions"

def emit (l : Lock) (source : Option String) : String :=
  endLine (header (originOf source l.model.package) l.hash ((hashElement? l.hash).getD 0) ++
    (File.ofModel l.model).text)

end FeltRelay.Cairo
