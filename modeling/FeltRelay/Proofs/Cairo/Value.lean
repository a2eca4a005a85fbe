import FeltRelay.Cairo.Identifier
import FeltRelay.Codec.ByteArray
import FeltRelay.Schema.Model

/-!
# Values of the VM

What a JSON value of a type is on the VM side: a message is a struct, a variant a variant without
payload, and a value that may be absent is wrapped in `Maybe`. Whether an integer lies in the range
of its type is left to the serialisation.
-/

namespace FeltRelay.Cairo

open FeltRelay.Codec FeltRelay.Schema

/-- A value of the VM. The members of a struct stand in its order. -/
inductive Value where
  | unit
  | bool (b : Bool)
  | int (i : Int)
  | bytes (bytes : List UInt8)
  | array (items : List Value)
  | struct (members : List (String × Value))
  | variant (name : String) (payload : Value)

namespace Value

def absent : Value := .variant "Absent" .unit

def present (v : Value) : Value := .variant "Present" v

/-- A scalar value. -/
def ofScalar : Scalar → Json → Option Value
  | .bool, .bool b => some (.bool b)
  | .bool, _ => none
  | .text, v => (bytesOfJson .text "$" v).toOption.map .bytes
  | .bytes, v => (bytesOfJson .bytes "$" v).toOption.map .bytes
  | _, v => (readInteger "$" v).toOption.map .int

/-- A value of a type, `ofMessage` giving the structs of messages. -/
def ofTy (m : Model) (ofMessage : String → Json → Option Value) : Schema.Ty → Json → Option Value
  | .scalar s, v => ofScalar s v
  | .optional _, .null => some absent
  | .optional t, v => (ofTy m ofMessage t v).map present
  | .array t, .arr vs => (vs.mapM (ofTy m ofMessage t)).map .array
  | .array _, _ => none
  | .enum name, .str s => do
    let spec ← m.enum? name
    if s ∈ spec.variants then some (.variant (identifier s) .unit) else none
  | .enum _, _ => none
  | .message name, v => ofMessage name v

/-- The value of a field. One that is not there is absent, if it may be. -/
def ofField (value : Schema.Ty → Json → Option Value) (ms : List (String × Json)) (f : Field) :
    Option Value :=
  match ms.lookup f.name with
  | some v => value f.type v
  | none => if f.type.isOptional then some absent else none

/-- The members of a struct. -/
def ofFields (value : Schema.Ty → Json → Option Value) (ms : List (String × Json)) :
    List Field → Option (List (String × Value))
  | [] => some []
  | f :: fields => do
    let v ← ofField value ms f
    let rest ← ofFields value ms fields
    return (identifier f.name, v) :: rest

/-- The struct of a message that has no other members than the declared ones. Each nested message
lies one level deeper in the value, so `depth` need not exceed the value's. -/
def ofMessage (m : Model) : Nat → String → Json → Option Value
  | depth + 1, name, .obj ms => do
    let spec ← m.message? name
    if ∀ e ∈ ms, e.1 ∈ spec.fieldNames then
      (ofFields (ofTy m (ofMessage m depth)) ms spec.fields).map .struct
    else none
  | _, _, _ => none

/-- The value that a JSON value of a type stands for. -/
def ofJson (m : Model) (t : Schema.Ty) (v : Json) : Option Value :=
  ofTy m (ofMessage m (v.depth + 1)) t v

end Value

end FeltRelay.Cairo
