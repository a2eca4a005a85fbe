/-!
# UTF-8

Texts as bytes and back. `decode?` accepts exactly the well-formed sequences: shortest forms only,
no surrogates, nothing above U+10FFFF. `decodeLossy` puts U+FFFD in the place of each longest
initial part of a character that breaks off, and of each byte that begins none.
-/

namespace FeltRelay.Text.Utf8

def encodeChar (c : Char) : List UInt8 :=
  let n := c.toNat
  if n < 0x80 then [.ofNat n]
  else if n < 0x800 then [.ofNat (0xC0 + n / 0x40), .ofNat (0x80 + n % 0x40)]
  else if n < 0x10000 then
    [.ofNat (0xE0 + n / 0x1000), .ofNat (0x80 + n / 0x40 % 0x40), .ofNat (0x80 + n % 0x40)]
  else
    [.ofNat (0xF0 + n / 0x40000), .ofNat (0x80 + n / 0x1000 % 0x40),
      .ofNat (0x80 + n / 0x40 % 0x40), .ofNat (0x80 + n % 0x40)]

def encode (s : String) : List UInt8 := s.toList.flatMap encodeChar

/-- What a first byte announces: how many bytes follow, the least and greatest value of the first
of them, and the bits that it gives itself. -/
def leader? (b : Nat) : Option (Nat × Nat × Nat × Nat) :=
  if b < 0x80 then some (0, 0, 0, b)
  else if b < 0xC2 then none
  else if b < 0xE0 then some (1, 0x80, 0xBF, b - 0xC0)
  else if b = 0xE0 then some (2, 0xA0, 0xBF, 0)
  else if b = 0xED then some (2, 0x80, 0x9F, 13)
  else if b < 0xF0 then some (2, 0x80, 0xBF, b - 0xE0)
  else if b = 0xF0 then some (3, 0x90, 0xBF, 0)
  else if b < 0xF4 then some (3, 0x80, 0xBF, b - 0xF0)
  else if b = 0xF4 then some (3, 0x80, 0x8F, 4)
  else none

/-- A character whose first byte was read: how many bytes are still to come, the range of the next
of them, and the bits so far. -/
structure Pending where
  left : Nat
  low : Nat
  high : Nat
  bits : Nat

def decodeFrom : Option Pending → List UInt8 → Option (List Char)
  | none, [] => some []
  | some _, [] => none
  | none, b :: rest =>
    match leader? b.toNat with
    | none => none
    | some (0, _, _, n) => (decodeFrom none rest).map (Char.ofNat n :: ·)
    | some (k + 1, low, high, n) => decodeFrom (some ⟨k, low, high, n⟩) rest
  | some p, b :: rest =>
    let n := b.toNat
    if p.low ≤ n ∧ n ≤ p.high then
      let bits := p.bits * 64 + (n - 0x80)
      match p.left with
      | 0 => (decodeFrom none rest).map (Char.ofNat bits :: ·)
      | k + 1 => decodeFrom (some ⟨k, 0x80, 0xBF, bits⟩) rest
    else none

def decode? (bytes : List UInt8) : Option String := (decodeFrom none bytes).map String.ofList

/-- Bytes as characters, with U+FFFD for what is not well formed. -/
def lossyFrom : Option Pending → List UInt8 → List Char
  | none, [] => []
  | some _, [] => ['\ufffd']
  | none, b :: rest =>
    match leader? b.toNat with
    | none => '\ufffd' :: lossyFrom none rest
    | some (0, _, _, n) => Char.ofNat n :: lossyFrom none rest
    | some (k + 1, low, high, n) => lossyFrom (some ⟨k, low, high, n⟩) rest
  | some p, b :: rest =>
    let n := b.toNat
    if p.low ≤ n ∧ n ≤ p.high then
      let bits := p.bits * 64 + (n - 0x80)
      match p.left with
      | 0 => Char.ofNat bits :: lossyFrom none rest
      | k + 1 => lossyFrom (some ⟨k, 0x80, 0xBF, bits⟩) rest
    else
      '\ufffd' :: match leader? n with
        | none => '\ufffd' :: lossyFrom none rest
        | some (0, _, _, m) => Char.ofNat m :: lossyFrom none rest
        | some (k + 1, low, high, m) => lossyFrom (some ⟨k, low, high, m⟩) rest

/-- Bytes as a text, with U+FFFD for what is not well formed. -/
def decodeLossy (bytes : List UInt8) : String := String.ofList (lossyFrom none bytes)

example : decode? [0xED, 0xA0, 0x80] = none := by decide
example : lossyFrom none [0xE2, 0x82, 0x41, 0xFF] = ['\ufffd', 'A', '\ufffd'] := by decide

end FeltRelay.Text.Utf8
