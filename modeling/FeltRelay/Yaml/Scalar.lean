import FeltRelay.Decimal.Layout
import FeltRelay.Json

/-!
# YAML scalars

What a scalar without quotes stands for under YAML 1.1: null, a truth value, an integer (decimal,
binary, octal, hexadecimal or in base sixty), a number with a point, or else its own text.
Underscores between digits do not count. Any scalar may be the name of a member, so names need not
be texts.
-/

namespace FeltRelay.Yaml

open FeltRelay.Text

/-- What a scalar stands for. -/
inductive Scalar where
  | null
  | bool (b : Bool)
  | int (i : Int)
  | num (x : Float)
  | str (s : String)
deriving Inhabited

namespace Scalar

instance : Coe String Scalar := ⟨.str⟩

def json : Scalar → Json
  | null => .null
  | bool b => .bool b
  | int i => .int i
  | num x => .num x
  | str s => .str s

def text? : Scalar → Option String
  | str s => some s
  | _ => none

/-- The name of a member of an object that stands for a mapping with this name. -/
def memberName : Scalar → String
  | null => "null"
  | bool b => if b then "true" else "false"
  | int i => integer i
  | num x => Decimal.render Decimal.longNames x
  | str s => s

/-- The integer that a number or a truth value equals, if it is whole. -/
def whole? : Scalar → Option Int
  | bool b => some (if b then 1 else 0)
  | int i => some i
  | num x => Decimal.toInt? x
  | _ => none

/-- Whether two names are one name. Numbers of different kinds are, if they are equal. -/
def same (a b : Scalar) : Bool :=
  match a.whole?, b.whole? with
  | some i, some j => i = j
  | none, none =>
    match a, b with
    | null, null => true
    | num x, num y => x == y || (x.isNaN && y.isNaN)
    | str s, str t => s = t
    | _, _ => false
  | _, _ => false

/-! ### Order -/

/-- A finite number as a fraction. -/
def fraction? : Scalar → Option (Int × Nat)
  | bool b => some (if b then 1 else 0, 1)
  | int i => some (i, 1)
  | num x =>
    if x.isNaN || x.isInf then none
    else
      let b := Decimal.Binary.ofFloat x
      some (if Decimal.isNegative x then -(b.numerator : Int) else b.numerator, b.denominator)
  | _ => none

/-- A number without fraction as it is, and any other as zero. -/
def extreme : Scalar → Float
  | num x => x
  | _ => 0.0

/-- The order of texts by code points, and of numbers. -/
def le : Scalar → Scalar → Bool
  | str s, str t => s ≤ t
  | a, b =>
    match a.fraction?, b.fraction? with
    | some (m, c), some (n, d) => m * d ≤ n * c
    | _, _ => a.extreme ≤ b.extreme

def isText : Scalar → Bool
  | str _ => true
  | _ => false

def isNumber : Scalar → Bool
  | bool _ | int _ | num _ => true
  | _ => false

/-- Whether names can be put in order: texts can, numbers can, and a name by itself. -/
def comparable (names : List Scalar) : Bool :=
  names.length ≤ 1 || names.all isText || names.all isNumber

end Scalar

/-- The spellings of null and of the truth values. -/
def words : List (String × Scalar) :=
  ["", "~", "null", "Null", "NULL"].map (fun w => (w, .null)) ++
    ["yes", "Yes", "YES", "true", "True", "TRUE", "on", "On", "ON"].map
      (fun w => (w, .bool true)) ++
    ["no", "No", "NO", "false", "False", "FALSE", "off", "Off", "OFF"].map
      (fun w => (w, .bool false))

/-- Scalars with a meaning of their own that no value has. -/
def reserved : List String := ["=", "<<"]

/-- A sign, if there is one: whether it is negative, and the rest. -/
def takeSign : List Char → Bool × List Char
  | '-' :: rest => (true, rest)
  | '+' :: rest => (false, rest)
  | s => (false, s)

/-- A digit in a base or an underscore. -/
def isPlace (base : Nat) (c : Char) : Bool := c = '_' || (digitIn? base c).isSome

/-- Digits with underscores as a number; nothing if there is no digit. -/
def places? (base : Nat) (s : List Char) : Option Nat :=
  let digits := s.filter (· ≠ '_')
  if digits.isEmpty then none
  else some (valueOf base (digits.map fun c => (digitIn? base c).getD 0))

/-- A part of a number in base sixty after the first one: one or two digits below sixty. -/
def isSixtieth : List Char → Bool
  | [a] => a.isDigit
  | [a, b] => '0' ≤ a && a ≤ '5' && b.isDigit
  | _ => false

/-- The forms of an integer without its sign. The outer answer tells whether a form applies, the
inner one whether the digits can be read. -/
def magnitude? (s : List Char) : Option (Option Nat) :=
  match s with
  | ['0'] => some (some 0)
  | '0' :: c :: rest =>
    if c = 'b' then
      if !rest.isEmpty && rest.all (isPlace 2) then some (places? 2 rest) else none
    else if c = 'x' then
      if !rest.isEmpty && rest.all (isPlace 16) then some (places? 16 rest) else none
    else if (c :: rest).all (isPlace 8) then some (places? 8 s)
    else none
  | c :: rest =>
    if !c.isDigit then none
    else
      let parts := rest.splitOnP (· = ':')
      let lead := c :: parts.headD []
      if !lead.all (isPlace 10) || !parts.tail.all isSixtieth then none
      else some ((places? 10 lead).map fun n =>
        parts.tail.foldl (fun acc p => acc * 60 + valueOf 10 (p.map fun d => d.toNat - 48)) n)
  | [] => none

def integer? (s : List Char) : Option (Option Int) :=
  let (negative, rest) := takeSign s
  (magnitude? rest).map fun n => n.map fun n => if negative then -(n : Int) else n

/-- The exponent at the end of a number: its mark, a sign, digits. The empty text is none. -/
def exponent? : List Char → Option Int
  | [] => some 0
  | c :: sign :: digits =>
    if (c = 'e' ∨ c = 'E') ∧ (sign = '-' ∨ sign = '+') ∧ digits ≠ [] ∧ digits.all Char.isDigit then
      let n : Int := decimalValue digits
      some (if sign = '-' then -n else n)
    else none
  | _ => none

/-- A number from the digits before the point, those after it, and an exponent. -/
def assemble (negative : Bool) (whole fraction : List Char) (exponent : Int) : Float :=
  let whole := whole.filter (· ≠ '_')
  let fraction := fraction.filter (· ≠ '_')
  Decimal.read negative (decimalValue (whole ++ fraction)) (exponent - fraction.length)

/-- A value, or a weight beyond all numbers that a part of some number in it has. -/
abbrev Weighed (α : Type) := Except Nat α

/-- The sum of the parts of a number in base sixty, the lowest part first. -/
def weigh (sum : Float) (weight : Nat) : List Float → Weighed Float
  | [] => .ok sum
  | x :: rest =>
    match Decimal.ofInt? weight with
    | some w => weigh (sum + x * w) (weight * 60) rest
    | none => .error weight

/-- A number with a point and without its sign. -/
def pointed? (signed negative : Bool) (s : List Char) : Option (Weighed Float) :=
  let whole := s.takeWhile (· ≠ '.')
  match s.dropWhile (· ≠ '.') with
  | '.' :: rest =>
    let fraction := rest.takeWhile (isPlace 10)
    match whole with
    | [] =>
      if signed || !(fraction.headD '_').isDigit then none
      else
        (exponent? (rest.drop fraction.length)).map fun e => .ok (assemble negative [] fraction e)
    | c :: more =>
      let parts := more.splitOnP (· = ':')
      let lead := c :: parts.headD []
      if !c.isDigit || !lead.all (isPlace 10) || !parts.tail.all isSixtieth then none
      else match parts.tail with
        | [] =>
          (exponent? (rest.drop fraction.length)).map fun e =>
            .ok (assemble negative lead fraction e)
        | sixtieths =>
          if fraction.length ≠ rest.length then none
          else
            let last := assemble false (sixtieths.getLastD []) fraction 0
            let above := (lead :: sixtieths.dropLast).reverse.map fun p => assemble false p [] 0
            some ((weigh last 60 above).map fun sum => if negative then -sum else sum)
  | _ => none

/-- A number with a point, or one of the words for infinity and for no number. -/
def number? (s : List Char) : Option (Weighed Float) :=
  let (negative, rest) := takeSign s
  let text := String.ofList rest
  if [".inf", ".Inf", ".INF"].contains text then
    some (.ok (if negative then -1.0 / 0.0 else 1.0 / 0.0))
  else if [".nan", ".NaN", ".NAN"].contains (String.ofList s) then some (.ok (0.0 / 0.0))
  else pointed? (rest.length ≠ s.length) negative rest

def plainValue? (s : List Char) : Option (Weighed Scalar) :=
  let text := String.ofList s
  if reserved.contains text then none
  else match words.lookup text, number? s, integer? s with
    | some v, _, _ => some (.ok v)
    | none, some x, _ => some (x.map .num)
    | none, none, some n => n.map fun i => .ok (.int i)
    | none, none, none => some (.ok (.str text))

example : integer? "0x1F".toList = some (some 31) := rfl
example : integer? "1:30".toList = some (some 90) := rfl
example : integer? "0b_".toList = some none := rfl

end FeltRelay.Yaml
