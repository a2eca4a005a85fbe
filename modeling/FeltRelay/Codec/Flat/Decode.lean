import FeltRelay.Codec.ByteArray
import FeltRelay.Codec.Input
import FeltRelay.Problem
import FeltRelay.Schema.Layout

/-!
# Flat elements to JSON values

The inverse of the flat encoding. Positions carry no tags, so a wrong schema is noticed only by
length and range checks. A failure carries the position of the element that it is about.
-/

namespace FeltRelay.Codec.Flat

open FeltRelay.Schema FeltRelay.Text

/-- The longest array: its length has 32 bits. -/
def maxArrayLength : Nat := Nat.pow 2 32 - 1

/-- Reads one element of the field; `what` says what it is for. -/
def takeElement (modulus : Int) (what : String) : Decoder Nat := do
  let s ← get
  match s.rest with
  | [] => throw (.truncated s.position ("sequence ended while reading " ++ what))
  | e :: _ =>
    let n ← checkElement modulus s.position e
    set (s.advance 1)
    return n

def checkElements (modulus : Int) : Nat → List Json → Except Failure (List Nat)
  | _, [] => .ok []
  | position, e :: rest => do
    let n ← checkElement modulus position e
    return n :: (← checkElements modulus (position + 1) rest)

/-- Reads a byte string. Its elements are checked as far as they are there before its layout. -/
def decodeBytes (modulus : Int) (kind : Scalar) : Decoder Json := do
  let start ← get
  let count ← takeElement modulus "ByteArray word count"
  let s ← get
  let words ← checkElements modulus s.position (s.rest.take (count + 2))
  let (bytes, _) ← unpackBytes start.position (count :: words)
  set (s.advance (count + 2))
  return .str (← textOfBytes kind start.position bytes)

/-- A value of a type, `ofMessage` decoding messages. -/
def decodeTy (m : Model) (modulus : Int) (ofMessage : String → Decoder Json) : Ty → Decoder Json
  | .scalar s => do
    if s.isByteString then decodeBytes modulus s
    else
      let start ← get
      let e ← takeElement modulus s.name
      ofElement modulus s start.position e
  | .optional t => do
    let start ← get
    let flag ← takeElement modulus "presence flag"
    if flag = 0 then return .null
    else if flag = 1 then decodeTy m modulus ofMessage t
    else
      throw ⟨.invalidPresence, "presence element must be 0 or 1, got " ++ decimal flag,
        .element start.position, []⟩
  | .array t => do
    let start ← get
    let n ← takeElement modulus "array length"
    if maxArrayLength < n then
      throw (.elementOutOfRange start.position "array length does not fit u32" [("length", n)])
    let width ← m.minWidth t
    let s ← get
    if s.rest.length < n * width then
      throw (.truncated s.position ("array of " ++ decimal n ++ " items needs at least " ++
        decimal (n * width) ++ " elements, " ++ decimal s.rest.length ++ " left"))
    return .arr (← readTimes (decodeTy m modulus ofMessage t) n)
  | .enum name => do
    let spec ← m.enum name
    let start ← get
    let i ← takeElement modulus (name ++ " index")
    match spec.variants[i]? with
    | some variant => return .str variant
    | none =>
      throw ⟨.invalidEnumIndex, name ++ " has " ++ decimal spec.variants.length ++
        " variants, got index " ++ decimal i, .element start.position, []⟩
  | .message name => ofMessage name

def decodeFields (decode : Ty → Decoder Json) :
    List (String × Json) → List Field → Decoder (List (String × Json))
  | ms, [] => return ms
  | ms, f :: rest => do
    let v ← decode f.type
    decodeFields decode (Entries.put f.name v ms) rest

/-- A message. Between two elements that are read lie no more nested messages than the model has, so
`depth` need not exceed the bound below. -/
def decodeMessage (m : Model) (modulus : Int) : Nat → String → Decoder Json
  | 0, name => throw (.unsupportedField name "*" "recursive message")
  | depth + 1, name => do
    let spec ← m.message name
    let ms ← decodeFields (decodeTy m modulus (decodeMessage m modulus depth)) [] spec.fields
    return .obj ms

/-- How deep messages nest in a sequence of a length. -/
def nestingBound (m : Model) (length : Nat) : Nat := (m.messages.length + 1) * (length + 1)

def read (m : Model) (modulus : Int) (t : Ty) : Decoder Json := do
  let s ← get
  decodeTy m modulus (decodeMessage m modulus (nestingBound m s.rest.length)) t

/-- The value that starts at a position, and the number of its elements. -/
def decode (m : Model) (modulus : Int) (t : Ty) (elements : List Json) (position : Nat) :
    Except Failure (Json × Nat) := do
  let (v, s) ← (read m modulus t).run (.from elements position)
  return (v, s.position - position)

/-- The value that starts at a place, and the number of its elements. A negative place counts from
the end; behind the last element the first one follows. -/
def decodeAt (m : Model) (modulus : Int) (t : Ty) (elements : List Json) :
    Int → Attempt (Json × Nat)
  | .ofNat position => Attempt.ofExcept (decode m modulus t elements position)
  | .negSucc n =>
    if n < elements.length then
      Attempt.ofExcept <|
        (decode m modulus t (elements.drop (elements.length - (n + 1)) ++ elements) 0).mapError
          (·.moved (Int.negSucc n))
    else (decode m modulus t [] 0).mapError fun _ => .outOfReach

def decodeExact (m : Model) (modulus : Int) (t : Ty) (elements : List Json) :
    Except Failure Json := do
  let (v, count) ← decode m modulus t elements 0
  if count ≠ elements.length then
    let left := elements.length - count
    throw ⟨.trailingElements, decimal left ++ " element(s) left after decoding", .element count,
      [("remaining", left)]⟩
  return v

end FeltRelay.Codec.Flat
