import FeltRelay.Text.Blank
import FeltRelay.Text.Hex
import FeltRelay.Text.Numeral

/-!
# Integer literals

An integer literal has an optional sign, an optional base mark (`0x`, `0o`, `0b`, in either case)
and digits, between which single underscores may stand. A decimal literal has no leading zeros,
unless it is zero. Decimal digits of any script count, and blanks around the literal are skipped.
-/

namespace FeltRelay.Text

/-- Digits in a base with single underscores between them; `fresh` tells that a digit has to come
next. -/
def underscored? (base : Nat) : Bool → Nat → List Char → Option Nat
  | fresh, n, [] => if fresh then none else some n
  | fresh, n, c :: rest =>
    if c = '_' then (if fresh then none else underscored? base true n rest)
    else match digitIn? base c with
      | some d => underscored? base false (n * base + d) rest
      | none => none

/-- Digits after a base mark; one underscore may stand before them. -/
def marked? (base : Nat) : List Char → Option Nat
  | '_' :: rest => underscored? base true 0 rest
  | s => underscored? base true 0 s

def magnitude? (s : List Char) : Option Nat :=
  match s with
  | '0' :: c :: rest =>
    if c = 'x' ∨ c = 'X' then marked? 16 rest
    else if c = 'o' ∨ c = 'O' then marked? 8 rest
    else if c = 'b' ∨ c = 'B' then marked? 2 rest
    else (underscored? 10 true 0 s).filter (· = 0)
  | _ => underscored? 10 true 0 s

/-- A character with its counterpart in ASCII, if it is a digit or a blank of another script. -/
def inAscii (c : Char) : Char :=
  if c.toNat < 128 then c
  else match digitValue? c with
    | some d => digitChar d
    | none => if isBlank c then ' ' else c

/-- A text in ASCII, as far as it has a counterpart there, without the blanks around it. -/
def asciiTrimmed (text : String) : List Char :=
  let s := (text.toList.map inAscii).dropWhile Hex.isAsciiBlank
  (s.reverse.dropWhile Hex.isAsciiBlank).reverse

/-- An integer with an optional sign and blanks around it. -/
def signed? (read? : List Char → Option Nat) (text : String) : Option Int :=
  match asciiTrimmed text with
  | '-' :: rest => (read? rest).map fun n => -(n : Int)
  | '+' :: rest => (read? rest).map fun n => (n : Int)
  | s => (read? s).map fun n => (n : Int)

def literal? : String → Option Int := signed? magnitude?

/-- The integer that decimal digits spell, leading zeros allowed. -/
def decimal? : String → Option Int := signed? (underscored? 10 true 0)

example : literal? "0xF_F" = some 255 := by decide
example : literal? "007" = none := by decide
example : decimal? " 007" = some 7 := by decide
example : literal? "-0b11" = some (-3) := by decide

end FeltRelay.Text
