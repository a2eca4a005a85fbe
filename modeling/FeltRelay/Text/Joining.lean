import FeltRelay.Text.Composed
import FeltRelay.Text.Direction

/-!
# Scripts and joining letters

The letters of some scripts, as Unicode 14 lists them, as far as names of hosts may hold them.

Letters of some scripts change their shape where they join their neighbours. Two invisible signs
tell them to join, or not to; they have a meaning behind a virama, and the second one also between
letters that would join. Marks between letters do not count. The classes are those of Unicode 14, of
characters that names of hosts may hold.
-/

namespace FeltRelay.Text.Script

def greek : CharSet := CharSet.ofRuns
  "881 1 1 1 1 1 1 1 3 3 18 1 27 35 8 1 1 1 1 1 1 1 1 1 1 1 17 1 4 1 2 2 6441 5 469 8 8 6 10 8 8
   8 8 6 10 8 8 8 8 1 1 1 1 1 1 1 1 1 1 1 1 1 51 2 4 1 15 1 9 3 3 2 8 3 1 4 14 1 35694 1"

def hebrew : CharSet := CharSet.ofRuns
  "1425 45 1 1 1 2 1 2 1 1 8 27 4 6 62761 1"

/-- Run lengths of the characters of Japanese: Hiragana, Katakana and Han. -/
def japanese : CharSet := CharSet.ofRuns
  "12293 1 1 1 57 86 6 2 2 90 2 2 241 16 512 6592 64 20992 23054 2 1 1 1 2 10 1 1 1 1 2 2 3 30137
   1 12 2 16382 4 1 7 1 2 1 291 45 3 17 4 20120 42720 32 4153 7 222 2 5762 14 7473 5151 4939"

end FeltRelay.Text.Script

namespace FeltRelay.Text.Joining

/-- Run lengths of the letters that join the letter after them. -/
def onward : CharSet := CharSet.ofRuns
  "1568 1 5 1 1 1 1 5 4 13 1 7 1 2 35 2 9 15 18 38 1 2 9 1 1 1 1 2 40 3 2 1 18 3 5 4 1 9 1 1 1 1
   1 2 31 11 3 15 2 4 1 1 2 3 2 6 74 33 86 5 2 1 1 10 1 1 10 1 1 4 2 1 29 1 2 5 18 10 5 2 2 6 1
   15 3927 89 14 34 1 1 36757 51 25165 5 8 1 5 10 1 3 159 1 1 1 3 3 1 2 1 1 2 1 367 34 1 1 524 3
   1 17 43 4 2 12 46 1 1 2 4 1 2 2 1 2 1 1 2 1 55645 34"

/-- Run lengths of the letters that join the letter before them. -/
def backward : CharSet := CharSet.ofRuns
  "1568 1 1 30 1 10 35 2 1 3 5 91 1 1 24 2 10 3 2 1 16 1 1 30 29 51 74 33 85 25 7 1 1 4 1 4 5 19
   3 1 2 6 17 13 1 27 3927 89 14 34 1 1 36757 50 25166 6 1 1 1 2 3 9 1 10 2 1 155 18 367 35 524
   21 43 18 46 1 1 5 1 8 1 4 55645 34"

/-- Marks that letters join across: those that take no place, but for one, and six more. -/
def isTransparent (c : Char) : Bool :=
  (Direction.marks.contains c && c.toNat ≠ 71454) ||
    [3263, 3270, 72199, 72200, 72767, 125259].contains c.toNat

/-- A sign that takes the vowel from a letter. -/
def isVirama (c : Char) : Bool := Composed.classOf c.toNat = 9

/-- Whether the first letter of a text is of a set, marks aside. -/
def meets (s : CharSet) (text : List Char) : Bool :=
  match text.dropWhile isTransparent with
  | c :: _ => s.contains c
  | [] => false

/-- Whether the sign not to join has a meaning; `before` is reversed. -/
def keepsApart (before after : List Char) : Bool :=
  (before.head?.map isVirama).getD false || (meets onward before && meets backward after)

/-- Whether the sign to join has a meaning; `before` is reversed. -/
def holdsTogether (before : List Char) : Bool := (before.head?.map isVirama).getD false

end FeltRelay.Text.Joining
