import FeltRelay.Text.CharSet

/-!
# Decimal digits

The decimal digits of every script (Unicode 14): each script has its ten digits in a row, so the
table lists the zeros. Also the plain readings of digits in a base.
-/

namespace FeltRelay.Text

/-- The code points of the zeros. -/
def zeros : List Nat := CharSet.numbers none
  "48 1632 1776 1984 2406 2534 2662 2790 2918 3046 3174 3302 3430 3558 3664 3792 3872 4160 4240
   6112 6160 6470 6608 6784 6800 6992 7088 7232 7248 42528 43216 43264 43472 43504 43600 44016
   65296 66720 68912 69734 69872 69942 70096 70384 70736 70864 71248 71360 71472 71904 72016
   72784 73040 73120 92768 92864 93008 120782 120792 120802 120812 120822 123200 123632 125264
   130032".toList

/-- The value of a decimal digit of any script. -/
def digitValue? (c : Char) : Option Nat :=
  if c.toNat < 128 then (if c.isDigit then some (c.toNat - 48) else none)
  else (zeros.find? fun z => z ≤ c.toNat && c.toNat < z + 10).map (c.toNat - ·)

def isDecimalDigit (c : Char) : Bool := (digitValue? c).isSome

/-- The value of an ASCII digit in a base up to 36, letters in either case. -/
def digitIn? (base : Nat) (c : Char) : Option Nat :=
  let value :=
    if '0' ≤ c ∧ c ≤ '9' then some (c.toNat - 48)
    else if 'a' ≤ c ∧ c ≤ 'z' then some (c.toNat - 87)
    else if 'A' ≤ c ∧ c ≤ 'Z' then some (c.toNat - 55)
    else none
  value.filter (· < base)

/-- A hexadecimal digit, in either case. -/
def isHexDigit (c : Char) : Bool := (digitIn? 16 c).isSome

/-- The number that a list of digit values spells, most significant first. -/
def valueOf (base : Nat) (digits : List Nat) : Nat := digits.foldl (· * base + ·) 0

/-- Digits of any script, read in base ten; a character that is none counts as zero. -/
def decimalValue (s : List Char) : Nat := valueOf 10 (s.map fun c => (digitValue? c).getD 0)

/-- ASCII hexadecimal digits; a character that is none counts as zero. -/
def hexValue (s : List Char) : Nat := valueOf 16 (s.map fun c => (digitIn? 16 c).getD 0)

/-- Digits of a number in a base, least significant first; `fuel` bounds their count. -/
def digitsRev (base : Nat) : Nat → Nat → List Nat
  | 0, _ => []
  | fuel + 1, n => if n < base then [n] else n % base :: digitsRev base fuel (n / base)

def digitChar (d : Nat) : Char := if d < 10 then Char.ofNat (48 + d) else Char.ofNat (87 + d)

/-- A number in a base from 2 to 16, in small digits. -/
def inBase (base n : Nat) : List Char := (digitsRev base (n.log2 + 1) n).reverse.map digitChar

def decimal (n : Nat) : String := String.ofList (inBase 10 n)

def integer (i : Int) : String :=
  if i < 0 then String.ofList ('-' :: inBase 10 i.natAbs) else decimal i.natAbs

/-- A number in hexadecimal after `0x`. -/
def hexadecimal (n : Nat) : String := String.ofList ('0' :: 'x' :: inBase 16 n)

/-- An integer in hexadecimal, its sign in front of the mark. -/
def signedHex (i : Int) : String := (if i < 0 then "-" else "") ++ hexadecimal i.natAbs

/-- Zeros in front up to a width. -/
def padLeft (width : Nat) (pad : Char) (s : List Char) : List Char :=
  List.replicate (width - s.length) pad ++ s

example : inBase 16 48879 = ['b', 'e', 'e', 'f'] := by decide
example : integer (-120) = "-120" := by decide
example : decimal 0 = "0" := by decide

end FeltRelay.Text
