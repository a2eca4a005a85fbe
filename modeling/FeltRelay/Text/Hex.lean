import FeltRelay.Text.Numeral

/-!
# Bytes in hexadecimal

Bytes are written as two small digits each. A reader accepts digits of either case and skips ASCII
white space between byte pairs, not within one.
-/

namespace FeltRelay.Text.Hex

/-- The six white space characters of ASCII. -/
def isAsciiBlank (c : Char) : Bool := c = ' ' || (9 ≤ c.toNat && c.toNat ≤ 13)

def digits (b : UInt8) : List Char := [digitChar (b.toNat / 16), digitChar (b.toNat % 16)]

def encode (bytes : List UInt8) : String := String.ofList (bytes.flatMap digits)

/-- Digit pairs as bytes, or nothing if a character is out of place. -/
def decode? : List Char → Option (List UInt8)
  | [] => some []
  | c :: rest =>
    if isAsciiBlank c then decode? rest
    else match rest with
      | [] => none
      | d :: rest =>
        match digitIn? 16 c, digitIn? 16 d with
        | some h, some l => (decode? rest).map (.ofNat (16 * h + l) :: ·)
        | _, _ => none

example : decode? ['0', 'a', ' ', 'F', 'f'] = some [10, 255] := by decide
example : decode? ['0', ' ', 'a'] = none := by decide

end FeltRelay.Text.Hex
