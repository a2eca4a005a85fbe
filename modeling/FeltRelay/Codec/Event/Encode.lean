import FeltRelay.Codec.Flat.Encode

/-!
# JSON values to events

The second form of an encoded value: a container is opened and closed, a field is announced by its
name, and an element stands by itself. Arrays carry no length and optionals no presence element;
both follow from what stands between opening and closing.
-/

namespace FeltRelay.Codec

open FeltRelay.Schema FeltRelay.Text

/-- What an event opens or closes. -/
inductive Container where
  | struct | array | optional | enum
deriving DecidableEq, Repr, Inhabited

def Container.name : Container → String
  | struct => "struct"
  | array => "array"
  | optional => "optional"
  | enum => "enum"

inductive Event where
  | push (c : Container)
  | key (name : String)
  | value (element : Int)
  | pop (c : Container)
deriving DecidableEq, Repr, Inhabited

/-- An event as a pair of what happens and with what. -/
def Event.toJson : Event → Json
  | push c => .arr [.str "push", .str c.name]
  | key name => .arr [.str "key", .str name]
  | value n => .arr [.str "value", n]
  | pop c => .arr [.str "pop", .str c.name]

def Event.element? : Event → Option Int
  | value n => some n
  | _ => none

namespace Event

/-- What was written between the opening and the closing of a container. -/
def within (c : Container) (body : Unit → Emission Event) : Emission Event :=
  ((Emission.write [push c]).followedBy body).followedBy fun _ => .write [pop c]

/-- Items one after the other, each under its index. -/
def encodeItems (encode : String → Json → Emission Event) (path : String) :
    Nat → List Json → Emission Event
  | _, [] => .write []
  | i, v :: rest =>
    (encode (itemPath path i) v).followedBy fun _ => encodeItems encode path (i + 1) rest

/-- A value of a type, `ofMessage` encoding messages. -/
def encodeTy (m : Model) (modulus : Int) (ofMessage : String → String → Json → Emission Event) :
    Ty → String → Json → Emission Event
  | .scalar s, path, v =>
    if s.isByteString then
      .ofExcept ((bytesOfJson s path v).map fun bytes =>
        (packBytes bytes).map fun (n : Nat) => value n)
    else .ofExcept ((toElement modulus s path v).map fun e => [value e])
  | .optional _, _, .null => within .optional fun _ => .write []
  | .optional t, path, v => within .optional fun _ => encodeTy m modulus ofMessage t path v
  | .array t, path, .arr vs =>
    within .array fun _ =>
      encodeItems (fun path v => encodeTy m modulus ofMessage t path v) path 0 vs
  | .array _, path, _ => .stop (.typeMismatch path "expected array")
  | .enum name, path, v =>
    match m.enum name, v with
    | .error f, _ => .stop f
    | .ok spec, .str s =>
      match spec.indexOf? s with
      | some i => within .enum fun _ => .write [value i]
      | none =>
        .stop ⟨.unknownVariant, quoted s ++ " is not a variant of " ++ name, .path path, []⟩
    | .ok _, _ => .stop (.typeMismatch path ("expected " ++ name ++ " variant name"))
  | .message name, path, v => ofMessage name path v

/-- The fields of a message in order, each after its name; an optional one that is not there counts
as null. -/
def encodeFields (encode : Ty → String → Json → Emission Event) (name path : String)
    (ms : List (String × Json)) : List Field → Emission Event
  | [] => .write []
  | f :: rest =>
    let here : Emission Event := match ms.lookup f.name with
      | some v => (Emission.write [key f.name]).followedBy fun _ =>
          encode f.type (memberPath path f.name) v
      | none =>
        if f.type.isOptional then (Emission.write [key f.name]).followedBy fun _ =>
          encode f.type (memberPath path f.name) .null
        else .stop (missingField (memberPath path f.name) f.name name)
    here.followedBy fun _ => encodeFields encode name path ms rest

/-- A message. Each nested message lies one level deeper in the value, so `depth` need not exceed
the value's. -/
def encodeMessage (m : Model) (modulus : Int) : Nat → String → String → Json → Emission Event
  | 0, name, path, _ => .stop (.typeMismatch path ("value of " ++ name ++ " is nested too deeply"))
  | depth + 1, name, path, v =>
    match m.message name, v with
    | .error f, _ => .stop f
    | .ok spec, .obj ms =>
      match unknownNames spec ms with
      | [] => within .struct fun _ =>
          encodeFields (encodeTy m modulus (encodeMessage m modulus depth)) name path ms spec.fields
      | unknown => .stop (unknownFields path name unknown)
    | .ok _, _ => .stop (.typeMismatch path ("expected " ++ name ++ " object"))

def encode (m : Model) (modulus : Int) (t : Ty) (v : Json) : Except Failure (List Event) :=
  (encodeTy m modulus (encodeMessage m modulus (v.depth + 1)) t "$" v).result

end Event

end FeltRelay.Codec
