import FeltRelay.Text.CharSet

/-!
# Directions of writing

In which direction characters are written, as Unicode 14 says of those that names of hosts may hold.
Signs without a direction of their own follow their neighbours.
-/

namespace FeltRelay.Text

inductive Direction where
  | left
  | right
  | number
  | arabicNumber
  /-- A mark that takes no place of its own. -/
  | mark
  | neutral
deriving DecidableEq, Repr

namespace Direction

/-- Run lengths of the characters that are written to the left. -/
def rights : CharSet := CharSet.ofRuns
  "1488 27 4 6 43 32 1 10 35 2 1 4 4 91 1 1 15 2 7 2 10 6 16 1 1 30 29 89 11 1 14 43 9 2 10 22 4
   1 9 1 3 1 23 25 7 11 5 24 1 6 17 42 62889 1 2444 6 2 1 1 44 1 2 3 1 2 23 10 23 9 31 65 19 1 2
   10 22 10 26 70 56 6 2 64 1 15 4 1 3 1 29 42 29 3 29 35 8 1 28 27 54 10 22 10 19 13 18 110 73
   119 51 13 36 348 42 6 2 78 29 10 1 8 22 42 18 46 21 27 23 55305 197 93 34 7 1 4 10"

def numbers : CharSet := CharSet.ofRuns
  "48 10 1718 10"

def arabicNumbers : CharSet := CharSet.ofRuns
  "1632 10 67270 10"

/-- Run lengths of the marks that take no place. -/
def marks : CharSet := CharSet.ofRuns
  "768 64 2 1 3 9 1 32 275 5 265 45 1 1 1 2 1 2 1 1 72 11 48 21 16 1 101 7 2 6 2 2 1 4 35 1 30 27
   91 11 58 9 9 1 24 4 1 9 1 3 1 5 43 3 60 8 42 24 1 32 55 1 1 1 4 8 4 1 3 7 10 2 29 1 58 1 4 4 8
   1 20 2 26 1 2 2 57 1 4 2 4 2 2 3 3 1 30 2 3 1 11 2 57 1 4 5 1 2 4 1 20 2 22 6 1 1 58 1 2 1 1 4
   8 1 7 2 11 2 30 1 61 1 12 1 50 1 3 1 55 1 1 3 5 3 1 4 7 2 11 2 29 1 58 1 15 2 20 2 28 2 57 2 4
   4 8 1 20 2 29 1 72 1 7 3 1 1 90 1 2 7 12 8 98 1 2 9 11 6 74 2 27 1 1 1 1 1 55 2 1 1 5 5 1 1 1
   3 1 2 5 6 1 4 1 4 1 4 1 4 1 4 1 12 1 3 9 1 102 4 1 6 1 2 2 2 25 2 4 3 16 4 13 1 2 2 6 1 15 1
   703 3 946 3 29 2 30 2 30 2 67 7 8 1 2 11 9 1 167 2 34 1 118 3 4 2 9 1 6 3 219 2 2 1 58 1 1 7 1
   1 1 1 2 8 6 10 2 1 48 14 1 16 49 4 48 1 1 5 1 1 5 1 40 9 12 2 32 4 2 2 1 3 56 1 1 2 3 1 1 3 58
   8 2 2 152 3 1 13 1 7 4 1 6 1 3 2 198 64 3823 3 141 1 96 32 554 4 107 2 30164 1 4 10 32 2 80 2
   272 1 3 1 4 1 25 2 5 1 151 2 26 18 13 1 38 8 25 11 46 3 48 1 2 4 2 2 39 1 67 6 2 2 2 2 12 1 8
   1 47 1 51 1 1 3 2 2 5 2 1 1 42 2 8 1 238 1 2 1 4 1 20272 1 769 16 973 1 226 1 149 5 1670 3 1 2
   5 4 40 3 4 1 165 2 573 4 387 2 153 11 49 4 123 1 54 15 41 1 2 2 10 3 49 4 2 2 7 1 61 3 36 5 1
   8 62 1 12 2 52 9 10 4 2 1 95 3 2 1 1 2 6 1 160 1 3 8 21 2 57 2 3 1 37 7 3 5 195 8 2 3 1 1 23 1
   84 6 1 1 4 2 1 2 238 4 6 2 1 2 27 2 85 8 2 1 1 2 106 1 1 1 2 6 1 1 101 3 2 4 1 5 259 9 1 2 256
   2 1 1 4 1 144 4 2 2 4 1 32 6 2 2 40 6 2 4 8 1 9 6 2 3 46 13 1 2 406 7 1 6 84 22 2 7 1 2 1 2
   122 6 3 1 1 2 1 7 1 1 72 2 3 1 1 1 347 2 19451 5 59 7 1048 1 63 4 81 1 19640 2 4705 46 2 23
   2745 55 4 50 8 1 14 1 22 5 1 15 1360 7 1 17 2 7 1 2 1 5 261 7 375 1 61 4 1504 7 109 7"

def neutrals : CharSet := CharSet.ofRuns
  "45 1 137 1 513 2 11 10 28 1 136 1 7318 2 3617 1 715 1 30083 1 151 9 104 1"

def ofChar (c : Char) : Direction :=
  if rights.contains c then right
  else if numbers.contains c then number
  else if arabicNumbers.contains c then arabicNumber
  else if marks.contains c then mark
  else if neutrals.contains c then neutral
  else left

/-- Whether a direction makes a text one of two directions. -/
def isForeign (d : Direction) : Bool := d = right || d = arabicNumber

/-- Whether a text of these directions reads the same wherever it stands: all of it from left to
right, or all of it from right to left, where digits are of one kind and signs stand inside. -/
def areSettled (ds : List Direction) : Bool :=
  if !ds.any isForeign then true
  else
    ds.head? = some right && !ds.contains left &&
      !(ds.contains number && ds.contains arabicNumber) &&
      match (ds.filter (· ≠ mark)).getLast? with
      | some d => isForeign d || d = number
      | none => false

example : areSettled [.right, .number, .mark] = true := by decide
example : areSettled [.right, .left] = false := by decide
example : areSettled [.arabicNumber] = false := by decide
example : areSettled [.left, .neutral] = true := by decide

end Direction

end FeltRelay.Text
