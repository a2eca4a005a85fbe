import FeltRelay.Decimal.Shortest
import FeltRelay.Text.Numeral

/-!
# Floating-point numbers as text

Numbers are written with the fewest digits that read back: positionally from `0.0001` up to below
`10^16`, else with an exponent of a sign and at least two digits. A whole number keeps `.0` in
positional form. Reading is exact, rounded once.
-/

namespace FeltRelay.Decimal

open FeltRelay.Text

/-- The texts of the values that have no digits. -/
structure Specials where
  nan : String
  infinity : String

/-- Short names, as they stand in messages. -/
def shortNames : Specials := ⟨"nan", "inf"⟩

/-- Long names, as they stand in JSON text. -/
def longNames : Specials := ⟨"NaN", "Infinity"⟩

/-- The exponent of a decimal in scientific form: a sign and at least two digits. -/
def exponentText (e : Int) : List Char :=
  'e' :: (if e < 0 then '-' else '+') :: padLeft 2 '0' (inBase 10 e.natAbs)

def Scaled.layout (d : Scaled) : List Char :=
  let digits := inBase 10 d.digits
  let lead : Int := d.exponent + digits.length - 1
  if lead < -4 ∨ 16 ≤ lead then
    match digits with
    | [] => []
    | [c] => c :: exponentText lead
    | c :: rest => c :: '.' :: rest ++ exponentText lead
  else if 0 ≤ d.exponent then
    digits ++ List.replicate d.exponent.toNat '0' ++ ['.', '0']
  else if 0 ≤ lead then
    digits.take (lead.toNat + 1) ++ '.' :: digits.drop (lead.toNat + 1)
  else
    '0' :: '.' :: List.replicate ((-lead).toNat - 1) '0' ++ digits

def render (names : Specials) (x : Float) : String :=
  let sign := if isNegative x then "-" else ""
  if x.isNaN then names.nan
  else if x.isInf then sign ++ names.infinity
  else
    let b := Binary.ofFloat x
    if b.mantissa = 0 then sign ++ "0.0" else sign ++ String.ofList (shortest b).layout

/-- The number nearest to `digits · 10^exponent`. Exponents far outside the range of binary64 are
settled without computing the power. -/
def read (negative : Bool) (digits : Nat) (exponent : Int) : Float :=
  let magnitude : Int := exponent + (inBase 10 digits).length
  let size : Float :=
    if digits = 0 ∨ magnitude < -400 then 0.0
    else if 400 < magnitude then 1.0 / 0.0
    else Float.ofScientific digits (exponent < 0) exponent.natAbs
  if negative then -size else size

/-- The integer that a number equals, if it is whole. -/
def toInt? (x : Float) : Option Int :=
  if x.isNaN || x.isInf then none
  else
    let b := Binary.ofFloat x
    let q := b.numerator / b.denominator
    if b.numerator % b.denominator = 0 then some (if isNegative x then -(q : Int) else (q : Int))
    else none

/-- The whole part of a finite number, the fraction dropped. -/
def truncate? (x : Float) : Option Int :=
  if x.isNaN || x.isInf then none
  else
    let b := Binary.ofFloat x
    let q := b.numerator / b.denominator
    some (if isNegative x then -(q : Int) else (q : Int))

/-- The number nearest to an integer, if it is within range. -/
def ofInt? (i : Int) : Option Float :=
  let x := read (i < 0) i.natAbs 0
  if x.isInf then none else some x

example : render shortNames 0.1 = "0.1" := by decide +kernel
example : render shortNames 1e16 = "1e+16" := by decide +kernel
example : render shortNames 1.5e-7 = "1.5e-07" := by decide +kernel
example : render longNames (-0.0) = "-0.0" := by decide +kernel

end FeltRelay.Decimal
