import FeltRelay.Decimal.Scientific
import FeltRelay.Text.Quoted

/-!
# Texts with slots

A slot starts with a percent sign. After it stand, each as wanted, a name in parentheses, flags, a
width, a point and a precision, and last a letter that says how the value is written. Two percent
signs stand for one. Values are taken in order, or by name if a single object is given.
-/

namespace FeltRelay.Text.Template

open FeltRelay.Text

structure Slot where
  left : Bool := false
  plus : Bool := false
  blank : Bool := false
  zero : Bool := false
  marked : Bool := false
  width : Nat := 0
  precision : Option Nat := none

inductive Values where
  | ordered (items : List Json)
  | named (members : List (String × Json)) (whole : Option Json)

/-- The next value, and the values after it. -/
def Values.next? : Values → Option (Json × Values)
  | ordered [] => none
  | ordered (v :: rest) => some (v, ordered rest)
  | named ms (some v) => some (v, named ms none)
  | named _ none => none

def flags : Slot → List Char → Slot × List Char
  | slot, '-' :: rest => flags { slot with left := true } rest
  | slot, '+' :: rest => flags { slot with plus := true } rest
  | slot, ' ' :: rest => flags { slot with blank := true } rest
  | slot, '0' :: rest => flags { slot with zero := true } rest
  | slot, '#' :: rest => flags { slot with marked := true } rest
  | slot, s => (slot, s)

/-- The integer that a value is; truth values count as one and zero. -/
def whole? : Json → Option Int
  | .int i => some i
  | .bool b => some (if b then 1 else 0)
  | _ => none

/-- A number in the text, or the next value where a star stands. Its size has a limit. -/
def count? (limit : Nat) (values : Values) (s : List Char) :
    Option (Option Int × Values × List Char) := do
  let (n, values, s) ← match s with
    | '*' :: rest => do
      let (v, values) ← values.next?
      pure (some (← whole? v), values, rest)
    | _ =>
      let digits := s.takeWhile Char.isDigit
      pure (if digits.isEmpty then none else some (decimalValue digits : Int), values,
        s.drop digits.length)
  if limit < (n.getD 0).natAbs then none else return (n, values, s)

/-- The greatest width and the greatest precision. -/
def maxWidth : Nat := Nat.pow 2 63 - 1
def maxPrecision : Nat := Nat.pow 2 31 - 1

def sizes? (slot : Slot) (values : Values) (s : List Char) :
    Option (Slot × Values × List Char) := do
  let (width, values, s) ← count? maxWidth values s
  let w := width.getD 0
  let slot := { slot with width := w.natAbs, left := slot.left || w < 0 }
  match s with
  | '.' :: rest =>
    let (precision, values, s) ← count? maxPrecision values rest
    return ({ slot with precision := some (precision.getD 0).toNat }, values, s)
  | _ => return (slot, values, s)

/-- Fills a text up to the width with blanks. -/
def Slot.pad (slot : Slot) (s : List Char) : List Char :=
  let blanks := List.replicate (slot.width - s.length) ' '
  if slot.left then s ++ blanks else blanks ++ s

/-- A number with its sign, a base mark and zeros up to the width. -/
def Slot.signed (slot : Slot) (negative : Bool) (mark digits : List Char) : List Char :=
  let sign :=
    if negative then ['-'] else if slot.plus then ['+'] else if slot.blank then [' '] else []
  let lead := sign ++ mark
  if slot.zero && !slot.left then lead ++ padLeft (slot.width - lead.length) '0' digits
  else slot.pad (lead ++ digits)

def Slot.text (slot : Slot) (s : String) : List Char :=
  slot.pad (match slot.precision with
    | some n => s.toList.take n
    | none => s.toList)

def Slot.integer (slot : Slot) (base : Nat) (mark : List Char) (capital : Bool) (i : Int) :
    List Char :=
  let digits := padLeft (slot.precision.getD 0) '0' (inBase base i.natAbs)
  slot.signed (i < 0) (if slot.marked then mark else [])
    (if capital then digits.map Char.toUpper else digits)

def Slot.number (slot : Slot) (form : Char) (x : Float) : List Char :=
  let places := slot.precision.getD 6
  let digits := x |> Decimal.sizeText fun b =>
    if form = 'f' then b.positional slot.marked places
    else if form = 'e' then b.scientific slot.marked places
    else b.general slot.marked (max places 1)
  slot.signed (Decimal.isNegative x && !x.isNaN) [] digits

/-- The integer that a value stands for, its fraction dropped. -/
def integer? : Json → Option Int
  | .num x => Decimal.truncate? x
  | v => whole? v

def number? : Json → Option Float
  | .num x => some x
  | .int i => Decimal.ofInt? i
  | .bool b => some (if b then 1.0 else 0.0)
  | _ => none

/-- A text with all that is not ASCII escaped. -/
def asciiOnly (s : String) : String :=
  String.ofList (s.toList.flatMap fun c => if c.toNat < 128 then [c] else escapeCode c)

def write? (slot : Slot) (letter : Char) (v : Json) : Option (List Char) :=
  match letter with
  | 's' => some (slot.text v.plainText)
  | 'r' => some (slot.text v.shown)
  | 'a' => some (slot.text (asciiOnly v.shown))
  | 'd' | 'i' | 'u' => (integer? v).map (slot.integer 10 [] false)
  | 'x' => (whole? v).map (slot.integer 16 ['0', 'x'] false)
  | 'X' => (whole? v).map (slot.integer 16 ['0', 'X'] true)
  | 'o' => (whole? v).map (slot.integer 8 ['0', 'o'] false)
  | 'e' | 'f' | 'g' => (number? v).map (slot.number letter)
  | 'E' | 'F' | 'G' =>
    (number? v).map fun x => (slot.number letter.toLower x).map Char.toUpper
  | 'c' =>
    match v with
    | .str s => if s.length = 1 then some (slot.pad s.toList) else none
    | v => (whole? v).bind fun i =>
      if 0 ≤ i ∧ i < 0x110000 then some (slot.pad [Char.ofNat i.toNat]) else none
  | _ => none

/-- The name in parentheses, which may hold balanced parentheses itself. -/
def slotName? : Nat → List Char → Option (List Char × List Char)
  | _, [] => none
  | 0, ')' :: rest => some ([], rest)
  | depth + 1, ')' :: rest => (slotName? depth rest).map fun (n, r) => (')' :: n, r)
  | depth, '(' :: rest => (slotName? (depth + 1) rest).map fun (n, r) => ('(' :: n, r)
  | depth, c :: rest => (slotName? depth rest).map fun (n, r) => (c :: n, r)

/-- The values for a slot with the text after its percent sign. -/
def named? (values : Values) (s : List Char) : Option (Values × List Char) :=
  match s with
  | '(' :: rest =>
    match values, slotName? 0 rest with
    | .named ms _, some (name, rest) =>
      (ms.lookup (String.ofList name)).map fun v => (.named ms (some v), rest)
    | _, _ => none
  | _ => some (values, s)

/-- Whether values are left over. -/
def Values.remain : Values → Bool
  | ordered items => !items.isEmpty
  | named _ _ => false

/-- Drops a letter that tells a size; it has no meaning. -/
def dropSize : List Char → List Char
  | c :: rest => if ['h', 'l', 'L'].contains c then rest else c :: rest
  | [] => []

def fillFrom : Nat → Values → List Char → Option (List Char)
  | 0, _, _ => none
  | _ + 1, values, [] => if values.remain then none else some []
  | budget + 1, values, '%' :: '%' :: rest => do return '%' :: (← fillFrom budget values rest)
  | budget + 1, values, '%' :: rest => do
    let (source, s) ← named? values rest
    let (slot, s) := flags {} s
    let (slot, source, s) ← sizes? slot source s
    let letter :: s := dropSize s | none
    let (v, source) ← source.next?
    return (← write? slot letter v) ++ (← fillFrom budget source s)
  | budget + 1, values, c :: rest => do return c :: (← fillFrom budget values rest)

/-- A text with its slots filled; nothing if slots and values do not fit. Without values the text
stays as it is. -/
def fill? (template : String) (values : List Json) : Option String :=
  let s := template.toList
  match values with
  | [] => some template
  | [.obj (m :: ms)] =>
    (fillFrom (s.length + 1) (.named (m :: ms) (some (.obj (m :: ms)))) s).map String.ofList
  | _ => (fillFrom (s.length + 1) (.ordered values) s).map String.ofList

example : fill? "a %s b %d" [.str "x", .int 5] = some "a x b 5" := by decide +kernel
example : fill? "%05.1f|%-4s|" [.num 2.25, .str "y"] = some "002.2|y   |" := by decide +kernel
example : fill? "%d" [.str "x"] = none := by decide +kernel

end FeltRelay.Text.Template
