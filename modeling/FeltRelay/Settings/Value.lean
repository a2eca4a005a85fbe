import FeltRelay.Decimal.Layout
import FeltRelay.Problem
import FeltRelay.Text.Literal

/-!
# Values of settings

A duration is a number of seconds, or a text of a number and a unit: milliseconds, seconds (also
without unit) or minutes. An integer may be given as a literal. Texts from the environment that
have not the right form are passed over; anywhere else they are failures.
-/

namespace FeltRelay

open FeltRelay.Text

namespace Settings

inductive Unit where
  | milliseconds | seconds | minutes
deriving DecidableEq, Repr

/-- An `s` in either case, the long one included. -/
def isLetterS (c : Char) : Bool := c = 's' || c = 'S' || c = 'ſ'

/-- A unit in either case. The long `s` counts as a letter, but does not make milliseconds. -/
def Unit.ofText? : List Char → Option Unit
  | [] => some seconds
  | [c] => if isLetterS c then some seconds else if c = 'm' ∨ c = 'M' then some minutes else none
  | [c, d] =>
    if (c = 'm' ∨ c = 'M') ∧ isLetterS d then
      some (if d = 'ſ' then seconds else milliseconds)
    else none
  | _ => none

def Unit.seconds? (x : Float) : Unit → Float
  | milliseconds => x / 1000.0
  | seconds => x
  | minutes => x * 60.0

/-- The seconds of a text: digits, perhaps a point and more digits, then the unit. -/
def durationOf? (text : String) : Option Float :=
  let s := trimChars text.toList
  let whole := s.takeWhile isDecimalDigit
  let rest := s.dropWhile isDecimalDigit
  if whole.isEmpty then none
  else
    let (places, rest) := match rest with
      | '.' :: r => (r.takeWhile isDecimalDigit, r.dropWhile isDecimalDigit)
      | _ => ([], rest)
    if places.isEmpty && (s.drop whole.length).head? = some '.' then none
    else (Unit.ofText? rest).map fun unit =>
      unit.seconds? (Decimal.read false (decimalValue (whole ++ places)) (-(places.length : Int)))

/-- The seconds that a value of a file or an override stands for. -/
def readDuration (key : String) (v : Json) : Attempt Float :=
  let refused (text : String) : Attempt Float :=
    .error (.failure (.config (key ++ " must be a duration" ++ text) [("key", key)]))
  match v with
  | .bool _ => refused ""
  | .int i =>
    match Decimal.ofInt? i with
    | some x => .ok x
    | none => .error (.tooLarge i)
  | .num x => .ok x
  | .str s =>
    match durationOf? s with
    | some x => .ok x
    | none => refused (", got " ++ v.shown)
  | _ => refused (", got " ++ v.shown)

/-- The integer that a value of a file or an override stands for. -/
def readInteger (key : String) (v : Json) : Attempt Int :=
  let refused (text : String) : Attempt Int :=
    .error (.failure (.config (key ++ " must be an integer" ++ text) [("key", key)]))
  match v with
  | .bool _ => refused ""
  | .int i => .ok i
  | .str s =>
    match literal? (trim s) with
    | some i => .ok i
    | none => refused (", got " ++ v.shown)
  | _ => refused (", got " ++ v.shown)

/-- The seconds of an environment text, or a default. -/
def durationOr (default : Float) (text : Option String) : Float :=
  (text.bind durationOf?).getD default

/-- The integer of an environment text, or a default. -/
def integerOr (default : Int) (text : Option String) : Int := (text.bind literal?).getD default

end Settings

end FeltRelay
