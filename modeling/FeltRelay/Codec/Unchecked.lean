import FeltRelay.Codec.ByteArray
import FeltRelay.Problem

/-!
# Elements that were not checked

Readings of single layouts from items of which nothing is known. An item counts as an integer where
it is one, or a truth value; other items are compared where they are numbers, and are of no use
otherwise. A negative place counts from the end of the sequence.
-/

namespace FeltRelay.Codec.Unchecked

open FeltRelay.Schema FeltRelay.Text

def integer? : Json → Option Int
  | .int i => some i
  | .bool b => some (if b then 1 else 0)
  | _ => none

/-- How a number compares with an integer; what is no number does not. -/
def relation? (x : Float) (i : Int) : Option Ordering :=
  match Decimal.toInt? x with
  | some n => some (compare n i)
  | none =>
    match Decimal.truncate? x with
    | some n =>
      let below := if Decimal.isNegative x then n - 1 else n
      some (if i ≤ below then .gt else .lt)
    | none =>
      if x.isNaN then none else some (if Decimal.isNegative x then .lt else .gt)

def compareItem (v : Json) (i : Int) : Attempt (Option Ordering) :=
  match v, integer? v with
  | _, some n => .ok (some (compare n i))
  | .num x, none => .ok (relation? x i)
  | _, none => .error .wrongKind

def exceeds (v : Json) (i : Int) : Attempt Bool := do
  return (← compareItem v i) = some .gt

/-- Whether an item lies at an integer or above. -/
def reaches (v : Json) (i : Int) : Attempt Bool := do
  let o ← compareItem v i
  return o = some .gt || o = some .eq

def itemAt (items : List Json) (place : Int) : Attempt Json :=
  match items[(if place < 0 then items.length + place else place).toNat]? with
  | some v => if place < -(items.length : Int) then .error .outOfReach else .ok v
  | none => .error .outOfReach

/-- The bytes of an item, as many as are asked for. -/
def bytesOf (count : Nat) (v : Json) : Attempt (List UInt8) :=
  match integer? v with
  | some (.ofNat n) => .ok (wordDigits count n)
  | some i => .error (.tooLarge i)
  | none => .error .unfit

/-- The bytes of full words from a place on. -/
def readWords (items : List Json) : Nat → Int → Attempt (List UInt8)
  | 0, _ => return []
  | count + 1, place => do
    let word ← itemAt items place
    if ← reaches word (Nat.pow 256 wordBytes : Nat) then
      throw (.failure (.elementOutOfRange place "ByteArray word exceeds 31 bytes" []))
    let bytes ← bytesOf wordBytes word
    return bytes ++ (← readWords items count (place + 1))

/-- The byte string at a place, and the place behind it. -/
def unpackBytes (items : List Json) (place : Int) : Attempt (List UInt8 × Int) := do
  if (items.length : Int) ≤ place then
    throw (.failure (.truncated place "missing ByteArray word count"))
  let count ← itemAt items place
  if ← exceeds count (items.length - (place + 1) - 2) then
    throw (.failure (.truncated place
      ("ByteArray declares " ++ count.shown ++ " words but the sequence is shorter")))
  let some count := integer? count | throw .wrongKind
  let bytes ← readWords items count.toNat (place + 1)
  let last := place + 1 + count.toNat
  let word ← itemAt items last
  let length ← itemAt items (last + 1)
  if ← reaches length wordBytes then
    throw (.failure (.elementOutOfRange (last + 1) "ByteArray pending length must be < 31" []))
  let some length := integer? length | throw .wrongKind
  if length < 0 then throw .malformed
  if ← reaches word (Nat.pow 256 length.toNat : Nat) then
    throw (.failure (.elementOutOfRange last "ByteArray pending word wider than its length" []))
  let rest ← if length = 0 then pure [] else bytesOf length.toNat word
  return (bytes ++ rest, last + 2)

/-- The value that an item stands for under a scalar kind. -/
def ofElement (modulus : Int) (s : Scalar) (offset : Int) (v : Json) : Attempt Json :=
  match s, v with
  | _, .int i => Attempt.ofExcept (Codec.ofElement modulus s offset i)
  | .felt, v => .ok v
  | .bool, v =>
    let n := match v with
      | .num x => Decimal.toInt? x
      | v => integer? v
    if n = some 0 ∨ n = some 1 then .ok (.bool (n = some 1))
    else
      .error (.failure (.elementOutOfRange offset "bool element must be 0 or 1" [("element", v)]))
  | s, v => do
    let below ← if s.isSigned then exceeds v ((modulus - 1) / 2) else pure false
    let value := match v, integer? v with
      | _, some i => if below then .int (i - modulus) else v
      | .num x, none => if below then .num (x - (Decimal.ofInt? modulus).getD 0.0) else v
      | _, none => v
    if !(← reaches value s.least) || (← exceeds value s.greatest) then
      throw (.failure
        (.elementOutOfRange offset ("element does not fit " ++ s.name) [("element", v)]))
    return value

end FeltRelay.Codec.Unchecked
