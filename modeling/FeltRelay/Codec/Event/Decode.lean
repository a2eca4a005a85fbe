import FeltRelay.Codec.Event.Encode
import FeltRelay.Codec.Input

/-!
# Events to JSON values

The inverse of the event encoding. Events come as JSON values, since a sender may put anything in
their place. Containers have to be balanced, and fields have to come under their names in declared
order. A failure carries the index of the event that it is about.
-/

namespace FeltRelay.Codec.Event

open FeltRelay.Schema FeltRelay.Text

/-- What happens in the next event and with what; the event is left in place. -/
def peek : Decoder (Json × Json) := do
  let s ← get
  match s.rest with
  | [] => throw (.truncated s.position "event stream ended early")
  | .arr [op, arg] :: _ => return (op, arg)
  | e :: _ => throw ⟨.decode, "malformed event " ++ e.shown, .element s.position, []⟩

def isText (expected : String) : Json → Bool
  | .str s => s = expected
  | _ => false

/-- Stops at an event that is not the expected one. -/
def unexpected {α : Type} (expected : String) (op arg : Json) : Decoder α := do
  let s ← get
  throw ⟨.decode, "expected " ++ expected ++ ", got (" ++ op.shown ++ ", " ++ arg.shown ++ ")",
    .element s.position, []⟩

/-- Reads an event that has to be a certain one. -/
def expect (op arg : String) : Decoder Unit := do
  let (gotOp, gotArg) ← peek
  if isText op gotOp && isText arg gotArg then modify (·.advance 1)
  else unexpected ("(" ++ quoted op ++ ", " ++ quoted arg ++ ")") gotOp gotArg

def element (modulus : Int) : Decoder Nat := do
  let s ← get
  let (op, arg) ← peek
  if isText "value" op then
    set (s.advance 1)
    checkElement modulus s.position arg
  else unexpected (quoted "value") op arg

def elements (modulus : Int) : Nat → Decoder (List Nat)
  | 0 => return []
  | n + 1 => do
    let e ← element modulus
    return e :: (← elements modulus n)

def atPop (c : Container) : Decoder Bool := do
  let (op, arg) ← peek
  return isText "pop" op && isText c.name arg

/-- Reads a byte string. Offsets within its layout count from its first element. -/
def decodeBytes (modulus : Int) (kind : Scalar) : Decoder Json := do
  let start ← get
  let count ← element modulus
  let left := (← get).rest.length
  let words ← elements modulus (min (count + 2) (left + 1))
  let (bytes, _) ← unpackBytes 0 (count :: words)
  return .str (← textOfBytes kind start.position bytes)

/-- Reads items up to the closing of an array. Every item has an event of its own, so `fuel` need
not exceed the number of events. -/
def decodeItems (decode : Decoder Json) : Nat → Decoder (List Json)
  | 0 => return []
  | fuel + 1 => do
    if ← atPop .array then
      modify (·.advance 1)
      return []
    let v ← decode
    return v :: (← decodeItems decode fuel)

/-- A value of a type, `ofMessage` decoding messages. -/
def decodeTy (m : Model) (modulus : Int) (ofMessage : String → Decoder Json) : Ty → Decoder Json
  | .scalar s => do
    if s.isByteString then decodeBytes modulus s
    else
      let start ← get
      let e ← element modulus
      ofElement modulus s start.position e
  | .optional t => do
    expect "push" Container.optional.name
    if ← atPop .optional then
      modify (·.advance 1)
      return .null
    let v ← decodeTy m modulus ofMessage t
    expect "pop" Container.optional.name
    return v
  | .array t => do
    expect "push" Container.array.name
    let s ← get
    return .arr (← decodeItems (decodeTy m modulus ofMessage t) (s.rest.length + 1))
  | .enum name => do
    let spec ← m.enum name
    expect "push" Container.enum.name
    let start ← get
    let i ← element modulus
    match spec.variants[i]? with
    | some variant =>
      expect "pop" Container.enum.name
      return .str variant
    | none =>
      throw ⟨.invalidEnumIndex, name ++ " has " ++ decimal spec.variants.length ++
        " variants, got index " ++ decimal i, .element start.position, []⟩
  | .message name => ofMessage name

/-- The fields of a message in order, each after its name. -/
def decodeFields (decode : Ty → Decoder Json) :
    List (String × Json) → List Field → Decoder (List (String × Json))
  | ms, [] => return ms
  | ms, f :: rest => do
    expect "key" f.name
    let v ← decode f.type
    decodeFields decode (Entries.put f.name v ms) rest

/-- A message. Each one has an event of its own, so `depth` need not exceed the number of events. -/
def decodeMessage (m : Model) (modulus : Int) : Nat → String → Decoder Json
  | 0, _ => do throw (.truncated (← get).position "event stream ended early")
  | depth + 1, name => do
    let spec ← m.message name
    expect "push" Container.struct.name
    let ms ← decodeFields (decodeTy m modulus (decodeMessage m modulus depth)) [] spec.fields
    expect "pop" Container.struct.name
    return .obj ms

def read (m : Model) (modulus : Int) (t : Ty) : Decoder Json := do
  let s ← get
  decodeTy m modulus (decodeMessage m modulus (s.rest.length + 1)) t

def decode (m : Model) (modulus : Int) (t : Ty) (events : List Json) : Except Failure Json := do
  let (v, s) ← (read m modulus t).run (.from events 0)
  if s.position ≠ events.length then
    let left := events.length - s.position
    throw ⟨.trailingElements, decimal left ++ " event(s) left after decoding", .element s.position,
      [("remaining", left)]⟩
  return v

end FeltRelay.Codec.Event
