import FeltRelay.Decimal.Layout
import FeltRelay.Text.Literal

/-!
# Numbers as people write them

A number has an optional sign, then digits with perhaps a point among them and perhaps an exponent,
or a word for infinity or for no number, in letters of either case. Single underscores may stand
between digits. Decimal digits of any script count, and blanks around the number are skipped.
-/

namespace FeltRelay.Decimal

open FeltRelay.Text

/-- A text without its underscores, each of which has to stand between two digits; `after` tells
that a digit stands in front. -/
def joined? (after : Bool) : List Char → Option (List Char)
  | [] => some []
  | c :: rest =>
    if c = '_' then (if after && rest.head?.any Char.isDigit then joined? false rest else none)
    else (joined? c.isDigit rest).map (c :: ·)

/-- The exponent at the end of a number: its mark, perhaps a sign, digits. An empty text is zero. -/
def power? : List Char → Option Int
  | [] => some 0
  | c :: rest =>
    if c = 'e' ∨ c = 'E' then
      let (negative, digits) := match rest with
        | '-' :: r => (true, r)
        | '+' :: r => (false, r)
        | r => (false, r)
      if digits.isEmpty || !digits.all Char.isDigit then none
      else some (if negative then -(decimalValue digits : Int) else decimalValue digits)
    else none

/-- A number in digits, without its sign. -/
def digits? (negative : Bool) (s : List Char) : Option Float :=
  let whole := s.takeWhile Char.isDigit
  let rest := s.drop whole.length
  let (places, rest) := match rest with
    | '.' :: r => (r.takeWhile Char.isDigit, r.dropWhile Char.isDigit)
    | r => ([], r)
  if whole.isEmpty && places.isEmpty then none
  else (power? rest).map fun e =>
    read negative (decimalValue (whole ++ places)) (e - places.length)

def unsigned? (negative : Bool) (s : List Char) : Option Float :=
  let word := String.ofList (s.map Char.toLower)
  if word = "inf" ∨ word = "infinity" then some (if negative then -1.0 / 0.0 else 1.0 / 0.0)
  else if word = "nan" then some (0.0 / 0.0)
  else digits? negative s

def ofText? (text : String) : Option Float :=
  match joined? false (asciiTrimmed text) with
  | some ('-' :: rest) => unsigned? true rest
  | some ('+' :: rest) => unsigned? false rest
  | some s => unsigned? false s
  | none => none

example : (ofText? " 1_0.5e1 ").map Float.toBits = some (105.0 : Float).toBits := by decide +kernel
example : (ofText? "1_.5").isNone := by decide +kernel
example : (ofText? "-iNf").map Float.toBits = some (-1.0 / 0.0 : Float).toBits := by decide +kernel

end FeltRelay.Decimal
