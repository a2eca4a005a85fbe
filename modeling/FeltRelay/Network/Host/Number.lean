import FeltRelay.Text.Numeral

/-!
# Numeric hosts

A host can be a number: four bytes in decimal with points between them, or eight groups of up to
four hexadecimal digits with colons between them. In the second form one run of groups may be left
out, the last two groups may be written as four bytes, and a zone may follow a percent sign.
-/

namespace FeltRelay.Network.Host

open FeltRelay.Text

/-- A byte in decimal, without leading zeros. -/
def isByte (s : List Char) : Bool :=
  s ≠ [] && s.all Char.isDigit && s.length ≤ 3 && decimalValue s < 256 &&
    (s.head? ≠ some '0' || s.length = 1)

/-- Four numbers with points between them, whatever their size. -/
def isQuad (s : List Char) : Bool :=
  let parts := s.splitOnP (· = '.')
  parts.length = 4 && parts.all fun p => !p.isEmpty && p.all Char.isDigit

def isFourBytes (s : List Char) : Bool :=
  let parts := s.splitOnP (· = '.')
  parts.length = 4 && parts.all isByte

def isGroup (s : List Char) : Bool := s ≠ [] && s.length ≤ 4 && s.all isHexDigit

/-- Groups on one side of those that are left out: none, or all of them written. -/
def areGroups (s : List (List Char)) : Bool := s = [[]] || s.all isGroup

/-- The groups of an address; four bytes at the end stand for two groups. -/
def groups? (s : List Char) : Option (List (List Char)) :=
  let parts := s.splitOnP (· = ':')
  let last := parts.getLastD []
  if parts.length < 3 then none
  else if !last.contains '.' then some parts
  else if isFourBytes last then some (parts.dropLast ++ [['0'], ['0']])
  else none

/-- Whether groups are an address: eight, or fewer with one run left out. -/
def areAddress (groups : List (List Char)) : Bool :=
  let inner := (groups.drop 1).dropLast
  match inner.count [] with
  | 0 => groups.length = 8 && groups.all isGroup
  | 1 =>
    let i := inner.idxOf [] + 1
    let low := groups.take i
    let high := groups.drop (i + 1)
    let written := (low ++ high).countP (· ≠ [])
    areGroups low && areGroups high && written ≤ 7 && groups.length ≤ 9
  | _ => false

/-- Whether a text names a zone behind an address, or none. -/
def isZone : List Char → Bool
  | [] => true
  | _ :: zone => !zone.isEmpty && !zone.contains '%'

/-- Whether a text is an address of eight groups. -/
def isEightGroups (s : List Char) : Bool :=
  let address := s.takeWhile (· ≠ '%')
  isZone (s.drop address.length) && ((groups? address).map areAddress).getD false

example : isFourBytes "1.2.3.255".toList = true := by decide
example : isFourBytes "1.2.3.256".toList = false := by decide
example : isEightGroups "::1".toList = true := by decide +kernel
example : isEightGroups "1:2::1.2.3.4%a".toList = true := by decide +kernel
example : isEightGroups "1::2::3".toList = false := by decide +kernel
example : isEightGroups ":1:2:3:4:5:6:7".toList = false := by decide +kernel

end FeltRelay.Network.Host
