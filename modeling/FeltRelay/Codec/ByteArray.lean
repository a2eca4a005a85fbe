import FeltRelay.Codec.Element
import FeltRelay.Text.Hex
import FeltRelay.Text.Utf8

/-!
# Byte strings as elements

A byte string is laid out as the number of its full words, the words (31 bytes each, the first byte
most significant), the bytes that are left over as one more word, and their number. On the JSON
side text stands for its UTF-8 bytes, and raw bytes are hexadecimal after `0x`.
-/

namespace FeltRelay.Codec

open FeltRelay.Schema FeltRelay.Text

def wordBytes : Nat := 31

/-- The number that bytes spell, the first one most significant. -/
def wordValue (bytes : List UInt8) : Nat := bytes.foldl (fun n b => n * 256 + b.toNat) 0

/-- The last `count` bytes of a number, the first one most significant. -/
def wordDigits : Nat → Nat → List UInt8
  | 0, _ => []
  | count + 1, n => wordDigits count (n / 256) ++ [UInt8.ofNat (n % 256)]

/-- The first `count` full words. -/
def fullWords : Nat → List UInt8 → List Nat
  | 0, _ => []
  | count + 1, bytes => wordValue (bytes.take wordBytes) :: fullWords count (bytes.drop wordBytes)

def packBytes (bytes : List UInt8) : List Nat :=
  let count := bytes.length / wordBytes
  let rest := bytes.drop (count * wordBytes)
  count :: fullWords count bytes ++ [wordValue rest, rest.length]

/-- The bytes of `count` full words and what follows them. -/
def readWords : Nat → Nat → List Nat → Except Failure (List UInt8 × List Nat)
  | 0, _, s => .ok ([], s)
  | _ + 1, offset, [] => .error (.truncated offset "missing ByteArray word")
  | count + 1, offset, word :: rest =>
    if Nat.pow 256 wordBytes ≤ word then
      .error (.elementOutOfRange offset "ByteArray word exceeds 31 bytes" [])
    else do
      let (bytes, rest) ← readWords count (offset + 1) rest
      return (wordDigits wordBytes word ++ bytes, rest)

/-- The byte string at the front of elements that start at an offset, and what follows it. -/
def unpackBytes (offset : Nat) : List Nat → Except Failure (List UInt8 × List Nat)
  | [] => .error (.truncated offset "missing ByteArray word count")
  | count :: rest =>
    if rest.length < count + 2 then
      .error (.truncated offset
        ("ByteArray declares " ++ decimal count ++ " words but the sequence is shorter"))
    else do
      let (bytes, rest) ← readWords count (offset + 1) rest
      let at' := offset + 1 + count
      match rest with
      | pending :: length :: rest =>
        if wordBytes ≤ length then
          throw (.elementOutOfRange (at' + 1) "ByteArray pending length must be < 31" [])
        if Nat.pow 256 length ≤ pending then
          throw (.elementOutOfRange at' "ByteArray pending word wider than its length" [])
        return (bytes ++ wordDigits length pending, rest)
      | _ => throw (.truncated at' "missing ByteArray word")

/-- The byte string at an offset of a sequence, and the offset behind it. -/
def unpackBytesAt (elements : List Nat) (offset : Nat) : Except Failure (List UInt8 × Nat) := do
  let (bytes, rest) ← unpackBytes offset (elements.drop offset)
  return (bytes, elements.length - rest.length)

/-- The bytes of a JSON value; `asText` tells text from raw bytes. -/
def bytesOfJson (kind : Scalar) (path : String) : Json → Except Failure (List UInt8)
  | .str s =>
    if kind = .text then .ok (Utf8.encode s)
    else match s.toList with
      | '0' :: 'x' :: digits =>
        if digits.length % 2 = 1 then
          .error (.typeMismatch path "hex string must have an even number of digits")
        else match Hex.decode? digits with
          | some bytes => .ok bytes
          | none => .error (.typeMismatch path "invalid hex: *")
      | _ => .error (.typeMismatch path "bytes must be a 0x-prefixed hex string")
  | v =>
    .error (.typeMismatch path
      ("expected " ++ kind.name ++ " as a JSON string, got " ++ v.kindName))

def textOfBytes (kind : Scalar) (offset : Int) (bytes : List UInt8) : Except Failure String :=
  if kind = .text then
    match Utf8.decode? bytes with
    | some s => .ok s
    | none => .error (.elementOutOfRange offset "string is not valid UTF-8: *" [])
  else .ok ("0x" ++ Hex.encode bytes)

end FeltRelay.Codec
