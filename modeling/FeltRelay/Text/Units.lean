/-!
# Texts in units of two and four bytes

A character up to U+FFFF is one unit of sixteen bits, a character above it a pair of surrogates: a
high one with the upper ten bits of its distance from U+10000, then a low one with the lower ten.
In units of 32 bits every character is its own number. The bytes of a unit stand in either order.
-/

namespace FeltRelay.Text.Units

inductive ByteOrder where
  | highFirst | lowFirst
deriving DecidableEq, Repr

/-- The number that the bytes of a unit spell. -/
def ByteOrder.number : ByteOrder → List UInt8 → Nat
  | highFirst, bytes => bytes.foldl (fun n b => 256 * n + b.toNat) 0
  | lowFirst, bytes => bytes.foldr (fun b n => 256 * n + b.toNat) 0

def isHigh (n : Nat) : Bool := 0xD800 ≤ n && n < 0xDC00

def isLow (n : Nat) : Bool := 0xDC00 ≤ n && n < 0xE000

def paired (high low : Nat) : Char :=
  Char.ofNat (0x10000 + (high - 0xD800) * 0x400 + (low - 0xDC00))

/-- The character of one unit; a surrogate that stands alone becomes U+FFFD. -/
def lone (n : Nat) : Char := if isHigh n || isLow n then '\ufffd' else Char.ofNat n

def characters : List Nat → List Char
  | m :: n :: rest =>
    if isHigh m && isLow n then paired m n :: characters rest else lone m :: characters (n :: rest)
  | [m] => [lone m]
  | [] => []

/-- The units of sixteen bits in bytes; nothing if half a unit is left. -/
def pairs? (order : ByteOrder) : List UInt8 → Option (List Nat)
  | [] => some []
  | a :: b :: rest => (pairs? order rest).map (order.number [a, b] :: ·)
  | _ => none

/-- The units of 32 bits in bytes; nothing if a part of a unit is left. -/
def quads? (order : ByteOrder) : List UInt8 → Option (List Nat)
  | [] => some []
  | a :: b :: c :: d :: rest => (quads? order rest).map (order.number [a, b, c, d] :: ·)
  | _ => none

def decode16? (order : ByteOrder) (bytes : List UInt8) : Option String :=
  (pairs? order bytes).map fun units => String.ofList (characters units)

/-- A text in units of 32 bits, none of them above the last character. -/
def decode32? (order : ByteOrder) (bytes : List UInt8) : Option String :=
  (quads? order bytes).bind fun units =>
    if units.all (· ≤ 0x10FFFF) then some (String.ofList (units.map lone)) else none

example : decode16? .lowFirst [0x41, 0, 0x3D, 0xD8, 0, 0xDE] = some "A😀" := by decide
example : decode16? .highFirst [0, 0x41, 0] = none := by decide
example : decode32? .highFirst [0, 1, 0xF6, 0] = some "😀" := by decide
example : decode32? .highFirst [0, 0x11, 0, 0] = none := by decide

end FeltRelay.Text.Units
