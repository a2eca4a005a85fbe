import FeltRelay.Codec.ByteArray
import FeltRelay.Proofs.Text.Hex
import FeltRelay.Schema.Model

/-!
# Values as they read back

An encoding does not keep how a value was spelled. `normalised` is the spelling that decoding gives:
integers as integers, however they were written, raw bytes in small digits without blanks, and every
declared field of a message, absent ones as null.
-/

namespace FeltRelay.Codec

open FeltRelay.Schema FeltRelay.Text

/-- A scalar value. -/
def normalScalar : Scalar → Json → Json
  | .bool, v | .text, v => v
  | .bytes, .str s => .str (String.ofList ('0' :: 'x' :: Hex.plain (s.toList.drop 2)))
  | .bytes, v => v
  | _, v =>
    match readInteger "$" v with
    | .ok i => .int i
    | .error _ => v

/-- A value of a type, `ofMessage` treating messages. -/
def normalTy (ofMessage : String → Json → Json) : Ty → Json → Json
  | .scalar s, v => normalScalar s v
  | .optional _, .null => .null
  | .optional t, v => normalTy ofMessage t v
  | .array t, .arr vs => .arr (vs.map (normalTy ofMessage t))
  | .array _, v => v
  | .enum _, v => v
  | .message name, v => ofMessage name v

/-- The declared fields of a message in order. Of a repeated name the last field counts. -/
def normalFields (normal : Ty → Json → Json) (ms : List (String × Json)) (fields : List Field) :
    List (String × Json) :=
  Entries.ofPairs (fields.map fun f => (f.name, ((ms.lookup f.name).map (normal f.type)).getD .null))

/-- A message. Each nested message lies one level deeper in the value, so `depth` need not exceed
the value's. -/
def normalMessage (m : Model) : Nat → String → Json → Json
  | depth + 1, name, .obj ms =>
    match m.message? name with
    | some spec => .obj (normalFields (normalTy (normalMessage m depth)) ms spec.fields)
    | none => .obj ms
  | _, _, v => v

/-- A value of a type as it reads back. -/
def normalised (m : Model) (t : Ty) (v : Json) : Json := normalTy (normalMessage m (v.depth + 1)) t v

/-- The arrays of a value are shorter than `2^32` items and its byte strings shorter than `2^64`
bytes. -/
inductive Fits (m : Model) : Ty → Json → Prop
  | scalar {s : Scalar} {v : Json}
      (h : ∀ bytes, s.isByteString = true → bytesOfJson s "$" v = .ok bytes → bytes.length < 2 ^ 64) :
      Fits m (.scalar s) v
  | enum {name : String} {v : Json} : Fits m (.enum name) v
  | absent {t : Ty} : Fits m (.optional t) .null
  | optional {t : Ty} {v : Json} (h : Fits m t v) : Fits m (.optional t) v
  | array {t : Ty} {vs : List Json} (h : vs.length < 2 ^ 32) (hs : ∀ v ∈ vs, Fits m t v) :
      Fits m (.array t) (.arr vs)
  | message {name : String} {ms : List (String × Json)}
      (h : ∀ spec, m.message? name = some spec → ∀ f ∈ spec.fields, ∀ v,
        ms.lookup f.name = some v → Fits m f.type v) : Fits m (.message name) (.obj ms)

/-! ### Integers -/

/-- Where an integer stands does not matter for its value. -/
theorem readInteger_path {path : String} {v : Json} {i : Int} (h : readInteger path v = .ok i)
    (path' : String) : readInteger path' v = .ok i := by
  unfold readInteger at h ⊢
  split at h <;> first | assumption | (split at h <;> simp_all) | cases h

end FeltRelay.Codec
