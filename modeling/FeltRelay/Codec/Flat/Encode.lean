import FeltRelay.Codec.ByteArray
import FeltRelay.Codec.Emission
import FeltRelay.Schema.Model

/-!
# JSON values to flat elements

The declared type drives the encoding: a scalar is one element, a byte string has its own layout,
an optional is a presence element and the value if there is one, an array is its length and its
items, a message is its fields in order, an enumeration is the index of the variant. A failure
carries the path of the value that it is about.
-/

namespace FeltRelay.Codec

open FeltRelay.Schema FeltRelay.Text

def itemPath (path : String) (index : Nat) : String := path ++ "[" ++ decimal index ++ "]"

def memberPath (path name : String) : String := path ++ "." ++ name

/-- The names of members that a message does not declare, in order of their characters. -/
def unknownNames (spec : Message) (ms : List (String × Json)) : List String :=
  Entries.keys (Entries.sorted (ms.filter fun e => !spec.fieldNames.contains e.1))

/-- Members that a message does not declare are refused together. -/
def unknownFields (path name : String) (unknown : List String) : Failure :=
  .typeMismatch path ("unknown field(s) for " ++ name ++ ": " ++ ", ".intercalate unknown)

/-- A member that has to be there is not. -/
def missingField (path field name : String) : Failure :=
  .typeMismatch path ("missing field " ++ quoted field ++ " of " ++ name)

namespace Flat

/-- Items one after the other, each under its index. -/
def encodeItems (encode : String → Json → Emission Int) (path : String) :
    Nat → List Json → Emission Int
  | _, [] => .write []
  | i, v :: rest =>
    (encode (itemPath path i) v).followedBy fun _ => encodeItems encode path (i + 1) rest

/-- A value of a type, `ofMessage` encoding messages. -/
def encodeTy (m : Model) (modulus : Int) (ofMessage : String → String → Json → Emission Int) :
    Ty → String → Json → Emission Int
  | .scalar s, path, v =>
    if s.isByteString then
      .ofExcept ((bytesOfJson s path v).map fun bytes => (packBytes bytes).map Int.ofNat)
    else .ofExcept ((toElement modulus s path v).map ([·]))
  | .optional _, _, .null => .write [0]
  | .optional t, path, v =>
    (Emission.write [1]).followedBy fun _ => encodeTy m modulus ofMessage t path v
  | .array t, path, .arr vs =>
    (Emission.write [(vs.length : Int)]).followedBy fun _ =>
      encodeItems (fun path v => encodeTy m modulus ofMessage t path v) path 0 vs
  | .array _, path, v => .stop (.typeMismatch path ("expected array, got " ++ v.standardName))
  | .enum name, path, v =>
    match m.enum name, v with
    | .error f, _ => .stop f
    | .ok spec, .str s =>
      match spec.indexOf? s with
      | some i => .write [i]
      | none =>
        .stop ⟨.unknownVariant, quoted s ++ " is not a variant of " ++ name, .path path,
          [("variants", .strings spec.variants)]⟩
    | .ok _, v =>
      .stop (.typeMismatch path ("expected " ++ name ++ " variant name, got " ++ v.standardName))
  | .message name, path, v => ofMessage name path v

/-- The fields of a message in order; an optional one that is not there is absent. -/
def encodeFields (encode : Ty → String → Json → Emission Int) (name path : String)
    (ms : List (String × Json)) : List Field → Emission Int
  | [] => .write []
  | f :: rest =>
    let here : Emission Int := match ms.lookup f.name with
      | some v => encode f.type (memberPath path f.name) v
      | none =>
        if f.type.isOptional then .write [0]
        else .stop (missingField (memberPath path f.name) f.name name)
    here.followedBy fun _ => encodeFields encode name path ms rest

/-- A message. Each nested message lies one level deeper in the value, so `depth` need not exceed
the value's. -/
def encodeMessage (m : Model) (modulus : Int) : Nat → String → String → Json → Emission Int
  | 0, name, path, _ => .stop (.typeMismatch path ("value of " ++ name ++ " is nested too deeply"))
  | depth + 1, name, path, v =>
    match m.message name, v with
    | .error f, _ => .stop f
    | .ok spec, .obj ms =>
      match unknownNames spec ms with
      | [] =>
        encodeFields (encodeTy m modulus (encodeMessage m modulus depth)) name path ms spec.fields
      | unknown => .stop (unknownFields path name unknown)
    | .ok _, v =>
      .stop (.typeMismatch path ("expected " ++ name ++ " object, got " ++ v.standardName))

/-- Writes the encoding of a value that stands at a path. -/
def emit (m : Model) (modulus : Int) (t : Ty) (path : String) (v : Json) : Emission Int :=
  encodeTy m modulus (encodeMessage m modulus (v.depth + 1)) t path v

def encode (m : Model) (modulus : Int) (t : Ty) (v : Json) : Except Failure (List Int) :=
  (emit m modulus t "$" v).result

end Flat

end FeltRelay.Codec
