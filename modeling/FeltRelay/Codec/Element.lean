import FeltRelay.Schema.Ty
import FeltRelay.Text.Blank

/-!
# Field elements

A field element is a natural number below the modulus. A boolean, an integer of fixed width or a
field value occupies one element; a negative integer is carried as its distance below the modulus,
and an element above half the modulus reads as negative. A modulus that is not positive has no
elements; integers are still reduced by it, to what lies between it and zero.
-/

namespace FeltRelay.Codec

open FeltRelay.Schema FeltRelay.Text

/-- The prime that field elements are taken below unless another modulus is set. -/
def starkPrime : Nat := Nat.pow 2 251 + 17 * Nat.pow 2 192 + 1

/-! ### Integers in JSON -/

/-- A nonempty string of ASCII digits in a base. -/
def digitsIn? (base : Nat) (s : List Char) : Option Nat :=
  if s.isEmpty then none else (s.mapM (digitIn? base)).map (valueOf base)

/-- An integer of a trimmed text: decimal, or hexadecimal after `0x`, perhaps negative. -/
def integerOf? (s : List Char) : Option Int :=
  let (negative, s) := match s with
    | '-' :: rest => (true, rest)
    | s => (false, s)
  let n := match s with
    | '0' :: 'x' :: rest => digitsIn? 16 rest
    | s => digitsIn? 10 s
  n.map fun n => if negative then -(n : Int) else n

/-- The integer that a JSON value stands for: an integer, a whole number, or a text that spells
one. -/
def readInteger (path : String) : Json → Except Failure Int
  | .int i => .ok i
  | .bool _ => .error (.typeMismatch path "expected integer, got boolean")
  | .num x =>
    match Decimal.toInt? x with
    | some i => .ok i
    | none => .error (.typeMismatch path "expected integer, got float")
  | .str s =>
    match integerOf? (trimChars s.toList) with
    | some i => .ok i
    | none => .error (.typeMismatch path ("expected integer string, got " ++ quoted s))
  | v => .error (.typeMismatch path ("expected integer, got " ++ v.kindName))

/-! ### Elements -/

/-- An item of a sequence as an element of the field. -/
def checkElement (modulus offset : Int) : Json → Except Failure Nat
  | .int i =>
    if 0 ≤ i ∧ i < modulus then .ok i.toNat
    else .error (.elementOutOfRange offset "element outside the field" [("element", i)])
  | v => .error (.elementOutOfRange offset ("element is not an integer: " ++ v.shown) [])

def toElement (modulus : Int) (s : Scalar) (path : String) (v : Json) : Except Failure Int :=
  match s with
  | .bool =>
    match v with
    | .bool b => .ok (if b then 1 else 0)
    | v => .error (.typeMismatch path ("expected boolean, got " ++ v.kindName))
  | .felt => do
    let i ← readInteger path v
    if 0 ≤ i ∧ i < modulus then return i
    else throw (.rangeOverflow path "felt252 value out of range [0, modulus)" i)
  | s => do
    let i ← readInteger path v
    if ¬(s.least ≤ i ∧ i ≤ s.greatest) then
      throw (.rangeOverflow path
        (s.name ++ " out of range [" ++ integer s.least ++ ", " ++ integer s.greatest ++ "]") i)
    else if modulus = 0 then throw (.emptyField path)
    else return i.fmod modulus

/-- The integer that an element stands for under a scalar kind: above half the modulus an element
of a signed kind is negative. -/
def signedValue (modulus : Int) (s : Scalar) (element : Int) : Int :=
  if s.isSigned ∧ (modulus - 1) / 2 < element then element - modulus else element

def ofElement (modulus : Int) (s : Scalar) (offset element : Int) : Except Failure Json :=
  match s with
  | .bool =>
    if element = 0 ∨ element = 1 then .ok (.bool (element = 1))
    else .error (.elementOutOfRange offset "bool element must be 0 or 1" [("element", element)])
  | .felt => .ok (.int element)
  | s =>
    let i := signedValue modulus s element
    if s.least ≤ i ∧ i ≤ s.greatest then .ok (.int i)
    else
      .error (.elementOutOfRange offset ("element does not fit " ++ s.name) [("element", element)])

end FeltRelay.Codec
