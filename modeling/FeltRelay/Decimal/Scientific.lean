import FeltRelay.Decimal.Layout

/-!
# Numbers with a given count of digits

Scientific form has one digit before the point, a fixed count of places after it and an exponent.
General form has a fixed count of significant digits, positional where the exponent is small. Both
round the exact value, a tie to the even neighbour. In full, a number keeps a point that nothing
follows, and in general form the zeros at its end.
-/

namespace FeltRelay.Decimal

open FeltRelay.Text

/-- `num / den` rounded to the nearest integer, a tie to the even one. -/
def roundDiv (num den : Nat) : Nat :=
  let q := num / den
  match compare (2 * (num % den)) den with
  | .lt => q
  | .gt => q + 1
  | .eq => if q % 2 = 0 then q else q + 1

/-- The `places + 1` leading digits of a number and the exponent of the first of them. -/
def Binary.leading (x : Binary) (places : Nat) : Nat × Int :=
  if x.mantissa = 0 then (0, 0)
  else
    let lead := x.scale - 1
    let e : Int := lead - places
    let n := roundDiv (x.numerator * Nat.pow 10 (-e).toNat) (x.denominator * Nat.pow 10 e.toNat)
    if n = Nat.pow 10 (places + 1) then (n / 10, lead + 1) else (n, lead)

/-- Digits with places after them; a point in between if there are places, or in full. -/
def pointed (full : Bool) (whole places : List Char) : List Char :=
  if places.isEmpty && !full then whole else whole ++ '.' :: places

/-- A finite number without its sign in scientific form. -/
def Binary.scientific (full : Bool) (places : Nat) (x : Binary) : List Char :=
  let (n, lead) := x.leading places
  let ds := padLeft (places + 1) '0' (inBase 10 n)
  pointed full (ds.take 1) (ds.drop 1) ++ exponentText lead

/-- A finite number without its sign with a fixed count of places. -/
def Binary.positional (full : Bool) (places : Nat) (x : Binary) : List Char :=
  let n := roundDiv (x.numerator * Nat.pow 10 places) x.denominator
  let ds := padLeft (places + 1) '0' (inBase 10 n)
  pointed full (ds.take (ds.length - places)) (ds.drop (ds.length - places))

def significant (places : List Char) : List Char := (places.reverse.dropWhile (· = '0')).reverse

/-- A finite number without its sign in general form. -/
def Binary.general (full : Bool) (digits : Nat) (x : Binary) : List Char :=
  let places := digits - 1
  let (n, lead) := x.leading places
  let ds := padLeft (places + 1) '0' (inBase 10 n)
  let text (whole rest : List Char) : List Char :=
    pointed full whole (if full then rest else significant rest)
  if lead < -4 ∨ (places : Int) < lead then text (ds.take 1) (ds.drop 1) ++ exponentText lead
  else if lead < 0 then text ['0'] (List.replicate ((-lead).toNat - 1) '0' ++ ds)
  else text (ds.take (lead.toNat + 1)) (ds.drop (lead.toNat + 1))

/-- The size of a number in a form for finite ones. -/
def sizeText (form : Binary → List Char) (x : Float) : List Char :=
  if x.isNaN then shortNames.nan.toList
  else if x.isInf then shortNames.infinity.toList
  else form (Binary.ofFloat x)

/-- The text of a number with a fixed count of places. -/
def fixed (places : Nat) (x : Float) : String :=
  (if isNegative x && !x.isNaN then "-" else "") ++
    String.ofList (sizeText (·.positional false places) x)

example : fixed 1 0.25 = "0.2" := by decide +kernel
example : sizeText (·.scientific false 2) 12345.0 = "1.23e+04".toList := by decide +kernel
example : sizeText (·.general false 6) 0.5 = "0.5".toList := by decide +kernel
example : sizeText (·.general true 3) 100.0 = "100.".toList := by decide +kernel

end FeltRelay.Decimal
