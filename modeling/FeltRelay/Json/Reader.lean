import FeltRelay.Decimal.Layout
import FeltRelay.Json
import FeltRelay.Text.Units

/-!
# Reading JSON text

The reader accepts the JSON grammar and the words `NaN`, `Infinity` and `-Infinity`. A number with
a point or an exponent is read as the nearest binary64 number, any other as an integer. Of a
repeated member the last value counts, at the first place. Text has to end after the value.
-/

namespace FeltRelay.Json

open FeltRelay.Text

/-- The four blanks of the grammar. -/
def isGap (c : Char) : Bool := c = ' ' || c = '\t' || c = '\n' || c = '\r'

def skipGap (s : List Char) : List Char := s.dropWhile isGap

/-- The rest of a text after a word that it starts with. -/
def afterWord? : List Char → List Char → Option (List Char)
  | [], s => some s
  | w :: word, c :: s => if w = c then afterWord? word s else none
  | _ :: _, [] => none

/-- The number that four hexadecimal digits spell. -/
def unit? (a b c d : Char) : Option Nat := do
  let a ← digitIn? 16 a
  let b ← digitIn? 16 b
  let c ← digitIn? 16 c
  let d ← digitIn? 16 d
  return valueOf 16 [a, b, c, d]

def simpleEscape? : Char → Option Char
  | '"' => some '"'
  | '\\' => some '\\'
  | '/' => some '/'
  | 'b' => some (Char.ofNat 8)
  | 'f' => some (Char.ofNat 12)
  | 'n' => some '\n'
  | 'r' => some '\r'
  | 't' => some '\t'
  | _ => none

/-- The rest of a text after its opening quote, up to the closing one. -/
def readText : List Char → Option (List Char × List Char)
  | [] => none
  | '"' :: rest => some ([], rest)
  | '\\' :: 'u' :: a :: b :: c :: d :: '\\' :: 'u' :: e :: f :: g :: h :: rest =>
    match unit? a b c d, unit? e f g h with
    | some m, some n =>
      if Units.isHigh m && Units.isLow n then
        (readText rest).map fun (s, r) => (Units.paired m n :: s, r)
      else
        (readText ('\\' :: 'u' :: e :: f :: g :: h :: rest)).map fun (s, r) =>
          (Units.lone m :: s, r)
    | some m, none =>
      (readText ('\\' :: 'u' :: e :: f :: g :: h :: rest)).map fun (s, r) => (Units.lone m :: s, r)
    | none, _ => none
  | '\\' :: 'u' :: a :: b :: c :: d :: rest =>
    match unit? a b c d with
    | some m => (readText rest).map fun (s, r) => (Units.lone m :: s, r)
    | none => none
  | '\\' :: e :: rest =>
    match simpleEscape? e with
    | some c => (readText rest).map fun (s, r) => (c :: s, r)
    | none => none
  | c :: rest =>
    if c.toNat < 32 ∨ c = '\\' then none else (readText rest).map fun (s, r) => (c :: s, r)

def spanDigits (s : List Char) : List Char × List Char := s.span Char.isDigit

/-- The fraction of a number: a point and at least one digit. -/
def readFraction? : List Char → Option (List Char × List Char)
  | '.' :: rest =>
    match spanDigits rest with
    | ([], _) => none
    | (ds, r) => some (ds, r)
  | _ => none

/-- The exponent of a number: its mark, perhaps a sign, at least one digit. -/
def readExponent? (s : List Char) : Option (Int × List Char) :=
  match s with
  | c :: rest =>
    if c = 'e' ∨ c = 'E' then
      let (negative, rest) := match rest with
        | '-' :: r => (true, r)
        | '+' :: r => (false, r)
        | r => (false, r)
      match spanDigits rest with
      | ([], _) => none
      | (ds, r) =>
        let n : Int := decimalValue ds
        some (if negative then -n else n, r)
    else none
  | [] => none

/-- A number without its sign. The digits before the point have no leading zero. -/
def readMagnitude (negative : Bool) (s : List Char) : Option (Json × List Char) :=
  let (whole, rest) := match s with
    | '0' :: r => (['0'], r)
    | _ => spanDigits s
  if whole.isEmpty then none
  else
    let (fraction, rest) := match readFraction? rest with
      | some (ds, r) => (some ds, r)
      | none => (none, rest)
    let (exponent, rest) := match readExponent? rest with
      | some (e, r) => (some e, r)
      | none => (none, rest)
    match fraction, exponent with
    | none, none =>
      let n : Int := decimalValue whole
      some (.int (if negative then -n else n), rest)
    | _, _ =>
      let places := fraction.getD []
      let scale : Int := exponent.getD 0 - places.length
      some (.num (Decimal.read negative (decimalValue (whole ++ places)) scale), rest)

/-- A number or one of the words for numbers that have no digits. -/
def readNumber (s : List Char) : Option (Json × List Char) :=
  match s with
  | '-' :: rest =>
    match afterWord? "Infinity".toList rest with
    | some r => some (.num (-1.0 / 0.0), r)
    | none => readMagnitude true rest
  | _ => readMagnitude false s

def words : List (List Char × Json) :=
  [(['n', 'u', 'l', 'l'], .null), (['t', 'r', 'u', 'e'], .bool true),
    (['f', 'a', 'l', 's', 'e'], .bool false), (['N', 'a', 'N'], .num (0.0 / 0.0)),
    (['I', 'n', 'f', 'i', 'n', 'i', 't', 'y'], .num (1.0 / 0.0))]

def readAtom (s : List Char) : Option (Json × List Char) :=
  match words.findSome? fun (w, v) => (afterWord? w s).map fun r => (v, r) with
  | some found => some found
  | none => readNumber s

mutual

/-- A value at the front of a text; `fuel` bounds the nesting and the number of items. -/
def readValue : Nat → List Char → Option (Json × List Char)
  | 0, _ => none
  | fuel + 1, s =>
    match s with
    | '"' :: rest => (readText rest).map fun (t, r) => (.str (String.ofList t), r)
    | '[' :: rest =>
      match skipGap rest with
      | ']' :: r => some (.arr [], r)
      | r => readItems fuel [] r
    | '\x7b' :: rest =>
      match skipGap rest with
      | '\x7d' :: r => some (.obj [], r)
      | r => readMembers fuel [] r
    | _ => readAtom s

/-- The items of an array that follow, those read so far in reverse. -/
def readItems : Nat → List Json → List Char → Option (Json × List Char)
  | 0, _, _ => none
  | fuel + 1, acc, s =>
    match readValue fuel s with
    | none => none
    | some (v, r) =>
      match skipGap r with
      | ',' :: r => readItems fuel (v :: acc) (skipGap r)
      | ']' :: r => some (.arr (v :: acc).reverse, r)
      | _ => none

/-- The members of an object that follow, those read so far in reverse. -/
def readMembers : Nat → List (String × Json) → List Char → Option (Json × List Char)
  | 0, _, _ => none
  | fuel + 1, acc, s =>
    match s with
    | '"' :: rest =>
      match readText rest with
      | none => none
      | some (k, r) =>
        match skipGap r with
        | ':' :: r =>
          match readValue fuel (skipGap r) with
          | none => none
          | some (v, r) =>
            let acc := (String.ofList k, v) :: acc
            match skipGap r with
            | ',' :: r => readMembers fuel acc (skipGap r)
            | '\x7d' :: r => some (.obj (Entries.ofPairs acc.reverse), r)
            | _ => none
        | _ => none
    | _ => none

end

/-- The value that a text spells, if it is JSON. -/
def read? (text : String) : Option Json :=
  let s := text.toList
  match readValue (s.length + 1) (skipGap s) with
  | some (v, rest) => if (skipGap rest).isEmpty then some v else none
  | none => none


end FeltRelay.Json
