import FeltRelay.Network.Host.Permitted
import FeltRelay.Text.Case
import FeltRelay.Text.Punycode

/-!
# Host names beyond ASCII

A host name that is not ASCII is sent in ASCII: each of its parts that has other characters as
Punycode behind `xn--`. Every part has to be a name by the rules for international names of 2008,
also one that is given in Punycode.
-/

namespace FeltRelay.Network.Host

open FeltRelay.Text

/-- What stands in front of Punycode. -/
def mark : List Char := "xn--".toList

/-- The longest part of a name, and the longest name. -/
def maxLabel : Nat := 63
def maxName : Nat := 253

/-- Whether hyphens stand where a name may have them. -/
def hyphensFit (label : List Char) : Bool :=
  label.head? ≠ some '-' && label.getLast? ≠ some '-' && (label.drop 2).take 2 ≠ ['-', '-']

/-- Whether a text may be a part of a name. -/
def isLabel (label : List Char) : Bool :=
  !label.isEmpty && isComposed label && hyphensFit label &&
    !(label.head?.map marks.contains).getD false && allFit [] label &&
    Direction.areSettled (label.map Direction.ofChar)

/-- Whether an ASCII text may be a part of a name; Punycode has to stand for such a part. -/
def isAsciiLabel (label : List Char) : Bool :=
  if mark.isPrefixOf label then
    let code := label.drop mark.length
    code.getLast?.any (· ≠ '-') && ((Punycode.decode? code).map isLabel).getD false
  else isLabel label

def toAscii? (label : List Char) : Option (List Char) :=
  let sent :=
    if label.all (·.toNat < 128) then (if isAsciiLabel label then some label else none)
    else if isLabel label then some (mark ++ Punycode.encode label)
    else none
  sent.filter (·.length ≤ maxLabel)

/-- The points between parts, as several scripts write them. -/
def isPoint (c : Char) : Bool := ['.', '\u3002', '\uff0e', '\uff61'].contains c

/-- A name in ASCII; one point may end it. -/
def encode? (name : List Char) : Option (List Char) := do
  let labels := name.splitOnP isPoint
  let ended := labels.getLast? = some [] && 1 < labels.length
  let sent ← (if ended then labels.dropLast else labels).mapM toAscii?
  let name := List.intercalate ['.'] sent ++ (if ended then ['.'] else [])
  if maxName + (if ended then 1 else 0) < name.length then none else return name

end FeltRelay.Network.Host
