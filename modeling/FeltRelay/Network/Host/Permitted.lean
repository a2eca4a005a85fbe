import FeltRelay.Text.Joining

/-!
# Characters of host names

Which characters a part of a host name may hold: small letters, digits and marks of all scripts that
are stable under case and composition, and the hyphen. A few more are permitted between certain
neighbours only. The tables follow the rules for international names of 2008, with Unicode 14.
-/

namespace FeltRelay.Network.Host

open FeltRelay.Text

def permitted : CharSet := CharSet.ofRuns
  "45 1 2 10 39 26 100 24 1 8 1 1 1 1 1 1 1 1 1 1 1 1 1 1 1 1 1 1 1 1 1 1 1 1 1 1 1 1 1 1 1 1 1 1
   1 1 1 1 1 1 1 1 1 1 1 1 1 1 1 1 3 1 1 2 1 1 1 1 1 1 3 1 1 1 1 1 1 1 2 1 1 1 1 1 1 1 1 1 1 1 1
   1 1 1 1 1 1 1 1 1 1 1 1 1 1 1 1 1 1 1 1 1 1 1 1 1 1 1 1 1 1 1 1 1 2 1 1 1 1 1 1 1 2 1 1 1 2 1
   3 2 4 1 2 1 3 3 2 1 2 1 1 1 1 1 2 1 1 2 1 1 2 1 3 1 1 1 2 3 1 7 10 1 1 1 1 1 1 1 1 1 1 1 1 1 1
   2 1 1 1 1 1 1 1 1 1 1 1 1 1 1 1 1 1 2 4 1 3 1 1 1 1 1 1 1 1 1 1 1 1 1 1 1 1 1 1 1 1 1 1 1 1 1
   1 1 1 1 1 1 1 1 1 1 1 1 1 1 1 1 1 1 1 1 1 1 1 1 1 1 1 1 1 1 1 1 1 7 2 1 2 2 1 1 4 1 1 1 1 1 1
   1 1 97 9 9 4 12 26 1 1 1 17 64 2 1 3 9 1 32 1 1 1 1 3 1 3 3 18 1 27 35 8 1 1 1 1 1 1 1 1 1 1 1
   1 1 1 1 1 1 1 1 1 1 1 1 1 1 3 1 4 1 2 2 51 48 1 1 1 1 1 1 1 1 1 1 1 1 1 1 1 1 1 1 1 1 1 1 1 1
   1 1 1 1 1 1 1 1 1 1 1 5 3 1 1 1 1 1 1 1 1 1 1 1 1 1 1 1 1 1 1 1 1 1 1 1 1 1 1 1 1 1 1 1 1 1 1
   1 1 1 1 1 1 1 1 1 1 1 1 1 1 1 1 1 1 1 2 1 1 1 1 1 1 1 1 1 1 1 1 2 1 1 1 1 1 1 1 1 1 1 1 1 1 1
   1 1 1 1 1 1 1 1 1 1 1 1 1 1 1 1 1 1 1 1 1 1 1 1 1 1 1 1 1 1 1 1 1 1 1 1 1 1 1 1 1 1 1 1 1 1 1
   1 1 1 1 1 1 1 1 1 1 1 1 1 1 1 1 1 1 1 1 1 1 1 1 1 1 1 1 1 1 1 1 1 1 1 41 1 6 39 1 1 8 45 1 1 1
   2 1 2 1 1 8 27 4 4 29 11 5 32 1 31 14 7 4 91 1 8 2 10 1 6 10 6 16 59 2 101 14 54 7 1 2 46 18
   28 4 11 5 24 1 6 9 74 1 117 8 4 2 10 1 19 1 8 2 2 2 22 1 7 1 1 3 4 2 9 2 2 2 4 8 1 8 4 2 12 10
   1 1 1 2 3 1 6 4 2 2 22 1 7 1 1 2 1 2 2 2 1 1 5 4 2 2 3 3 1 10 1 9 16 11 3 1 9 1 3 1 22 1 7 1 2
   1 5 2 10 1 3 1 3 2 1 15 4 2 10 9 7 1 3 1 8 2 2 2 22 1 7 1 2 1 5 2 9 2 2 2 3 7 3 7 5 2 10 1 1
   16 2 1 6 3 3 1 4 3 2 1 1 1 2 3 2 3 3 3 12 4 5 3 3 1 4 2 1 6 1 14 10 16 13 1 3 1 23 1 16 2 9 1
   3 1 4 7 2 1 3 2 1 2 4 2 10 16 4 1 8 1 3 1 23 1 10 1 5 2 9 1 3 1 4 7 2 6 2 1 4 2 10 1 2 13 13 1
   3 1 51 1 3 1 5 5 4 7 5 2 10 10 6 1 3 1 18 3 24 1 9 1 1 2 7 3 1 4 6 1 1 1 8 6 10 2 2 13 50 1 7
   5 15 1 10 39 2 1 1 1 5 1 24 1 1 1 12 1 10 2 5 1 1 1 6 2 10 4 2 32 1 10 1 12 2 6 10 11 1 1 1 1
   1 4 5 1 4 1 4 1 4 1 4 1 4 1 12 1 3 4 2 1 1 5 7 1 3 1 13 1 4 1 4 1 4 1 4 1 4 1 12 1 3 9 1 57 74
   6 78 50 43 2 3 256 73 1 4 2 7 1 1 1 4 2 41 1 4 2 33 1 4 2 7 1 1 1 4 2 15 1 57 1 4 2 67 2 3 32
   16 16 86 11 620 2 17 1 26 5 75 6 8 7 22 9 22 11 20 12 13 1 3 1 2 12 52 2 30 3 1 4 2 2 10 38 10
   6 89 7 43 5 70 10 31 1 12 4 12 10 40 2 5 11 44 4 26 6 10 38 28 4 63 1 29 2 11 6 10 13 1 8 14 1
   16 49 77 3 10 17 9 12 116 12 56 8 10 3 49 82 3 1 39 5 44 3 1 11 1 18 1 28 13 1 34 37 64 1 1 1
   1 1 1 1 1 1 1 1 1 1 1 1 1 1 1 1 1 1 1 1 1 1 1 1 1 1 1 1 1 1 1 1 1 1 1 1 1 1 1 1 1 1 1 1 1 1 1
   1 1 1 1 1 1 1 1 1 1 1 1 1 1 1 1 1 1 1 1 1 1 1 1 1 1 1 1 1 1 1 1 1 1 1 1 1 1 1 1 1 1 1 1 1 1 1
   1 1 1 1 1 1 1 1 1 1 1 1 1 1 1 1 1 1 1 1 1 1 1 1 1 1 1 1 1 1 1 1 1 1 1 1 1 1 1 1 1 1 1 1 1 1 1
   1 1 1 1 1 5 2 2 1 1 1 1 1 1 1 1 1 1 1 1 1 1 1 1 1 1 1 1 1 1 1 1 1 1 1 1 1 1 1 1 1 1 1 1 1 1 1
   1 1 1 1 1 1 1 1 1 1 1 1 1 1 1 1 1 1 1 1 1 1 1 1 1 1 1 1 1 1 1 1 1 1 1 1 1 1 1 1 1 1 1 1 1 1 1
   1 1 1 1 1 1 1 1 1 1 1 9 8 6 10 8 8 8 8 6 10 8 8 8 8 1 1 1 1 1 1 1 1 1 1 1 1 1 51 2 4 1 15 1 9
   3 3 2 8 3 1 4 14 1 343 1 53 1 2731 48 1 1 3 2 1 1 1 1 1 1 4 1 1 2 1 6 5 1 1 1 1 1 1 1 1 1 1 1
   1 1 1 1 1 1 1 1 1 1 1 1 1 1 1 1 1 1 1 1 1 1 1 1 1 1 1 1 1 1 1 1 1 1 1 1 1 1 1 1 1 1 1 1 1 1 1
   1 1 1 1 1 1 1 1 1 1 1 1 1 1 1 1 1 1 1 1 1 1 1 1 1 1 1 1 1 1 1 1 1 1 1 1 1 1 1 1 2 7 1 1 4 1 1
   12 38 1 1 5 1 2 56 23 24 9 7 1 7 1 7 1 7 1 7 1 7 1 7 1 7 1 32 47 1 469 3 34 4 14 1 4 86 2 2 2
   2 2 90 1 3 6 43 112 32 48 16 512 6592 64 22157 67 46 2 269 3 28 21 1 1 1 1 1 1 1 1 1 1 1 1 1 1
   1 1 1 1 1 1 1 1 1 1 1 1 1 1 1 1 1 1 1 1 1 1 1 1 1 1 1 1 1 1 3 4 10 1 1 1 1 1 1 1 1 1 1 1 1 1 1
   1 1 1 1 1 1 1 1 1 1 1 1 1 1 1 1 2 72 10 2 37 9 3 1 1 1 1 1 1 1 1 1 1 1 1 3 1 1 1 1 1 1 1 1 1 1
   1 1 1 1 1 1 1 1 1 1 1 1 1 1 1 1 1 1 1 1 1 1 1 1 1 1 1 1 1 1 1 1 1 1 1 1 1 1 1 1 1 1 1 1 1 1 1
   1 1 1 1 1 1 8 1 1 1 1 2 1 1 1 1 1 1 1 1 2 3 1 1 2 1 1 1 3 1 1 1 1 1 1 1 1 1 1 1 1 1 1 1 1 1 1
   1 1 5 1 5 1 1 1 1 1 1 1 1 1 1 1 1 1 1 1 4 1 1 1 6 1 1 1 1 1 1 1 1 1 28 2 2 46 4 1 19 52 12 70
   10 10 6 24 3 1 1 49 2 36 44 65 14 11 6 31 1 55 9 14 2 10 6 23 3 73 24 3 2 16 2 5 10 6 2 6 2 6
   9 7 1 7 1 43 5 9 87 43 1 2 2 10 6 11172 8810 2 1 1 1 2 10 1 1 1 1 2 2 3 244 1 769 16 67 1 396
   12 1 26 1 19 1 2 1 15 2 14 34 123 258 1 130 29 3 49 15 1 31 32 13 20 1 8 6 43 5 30 2 36 4 8 88
   118 2 10 46 36 4 40 8 52 51 11 1 15 1 7 1 2 67 311 9 22 10 8 24 1 127 6 2 1 1 44 1 2 3 1 2 23
   10 23 9 31 65 19 1 2 10 22 10 26 70 56 6 2 64 4 1 2 5 8 1 3 1 29 2 3 4 1 32 29 3 29 35 8 1 30
   25 54 10 22 10 19 13 18 110 73 119 51 13 40 8 10 326 42 1 2 3 2 78 29 10 1 8 33 31 22 42 21 27
   23 9 71 31 16 9 60 7 1 13 25 7 10 6 53 1 10 4 4 8 36 2 1 9 69 4 4 1 13 1 1 35 18 1 37 6 1 65 7
   1 1 1 4 1 15 1 10 7 59 5 10 6 4 1 8 2 2 2 22 1 7 1 2 1 5 1 10 2 2 2 3 2 1 6 1 5 7 2 7 3 5 139
   75 5 10 4 4 30 70 1 1 8 10 166 54 2 9 23 6 34 65 3 1 11 10 38 57 7 10 54 27 2 15 4 10 6 7 185
   59 133 42 21 8 2 1 2 8 1 2 1 30 1 2 2 9 12 10 70 8 2 46 2 8 1 2 27 63 8 1 8 74 3 1 18 73 263 9
   1 45 1 9 15 10 24 30 2 22 1 14 73 7 1 2 1 44 3 1 1 2 1 9 8 10 6 6 1 2 1 37 1 2 1 6 7 10 310 23
   185 1 79 922 230 196 2636 97 15 1071 4049 583 8633 569 7 31 1 10 6 79 1 10 6 30 2 5 11 55 9 4
   12 10 9 21 5 19 720 32 128 75 4 57 7 17 64 2 1 2 11 2 14 6136 8 1238 42 9 8935 4 1 7 1 2 1 291
   45 3 17 4 8 396 2308 107 5 13 3 9 7 10 3 2 4705 46 2 23 2745 55 4 50 8 1 14 1 22 5 1 15 1104
   31 225 7 1 17 2 7 1 2 1 5 213 45 3 14 2 10 4 1 321 31 17 58 1254 7 1 4 1 2 1 15 1 197 11 7 75
   42 4 10 5798 42720 32 4153 7 222 2 5762 14 7473 5151 4939"

/-- Run lengths of the marks among them, with which no part of a name begins. -/
def marks : CharSet := CharSet.ofRuns
  "768 64 2 1 3 9 1 32 275 5 265 45 1 1 1 2 1 2 1 1 72 11 48 21 16 1 101 7 2 6 2 2 1 4 35 1 30 27
   91 11 58 9 9 1 24 4 1 9 1 3 1 5 43 3 60 8 42 24 1 33 54 3 1 18 1 7 10 2 29 3 56 1 1 7 2 2 2 3
   9 1 10 2 26 1 2 3 56 1 1 5 4 2 2 3 3 1 30 2 3 1 11 3 56 1 1 8 1 3 1 3 20 2 22 6 1 3 56 1 1 7 2
   2 2 3 7 3 10 2 30 1 59 5 3 3 1 4 9 1 40 5 55 1 1 7 1 3 1 4 7 2 11 2 29 3 56 1 1 7 1 3 1 4 7 2
   11 2 28 4 55 2 1 7 1 3 1 4 9 1 10 2 29 3 70 1 4 6 1 1 1 8 18 2 61 1 2 7 12 8 98 1 2 9 11 6 74
   2 27 1 1 1 1 1 4 2 49 2 1 1 5 7 1 3 1 2 5 6 1 4 1 4 1 4 1 4 1 4 1 12 1 3 9 1 100 20 23 4 4 3 1
   3 2 7 3 4 13 12 1 1 10 4 703 3 946 4 28 3 29 2 30 2 66 30 9 1 167 2 34 1 118 12 4 12 219 5 57
   10 1 29 2 1 48 14 1 16 49 5 47 17 38 9 12 3 30 13 56 14 48 20 152 3 1 21 4 1 6 1 2 3 198 64
   3823 3 141 1 96 32 554 4 107 2 30164 1 4 10 32 2 80 2 272 1 3 1 4 1 23 5 4 1 83 2 50 18 26 18
   13 1 38 8 25 13 44 4 47 14 36 1 67 14 12 1 8 2 45 3 50 1 1 3 2 2 5 2 1 1 41 5 5 2 236 8 1 2
   20272 1 769 16 973 1 226 1 149 5 1670 3 1 2 5 4 40 3 4 1 165 2 573 4 387 2 153 11 49 4 122 3
   53 15 41 1 2 2 10 4 45 11 7 1 61 3 36 14 16 2 44 1 12 3 48 14 8 4 1 2 92 12 6 1 160 12 21 4 55
   2 1 7 2 2 2 3 9 1 10 2 2 7 3 5 192 18 23 1 81 20 235 7 2 9 27 2 82 17 106 13 101 15 256 15 245
   6 1 2 2 4 1 1 1 2 141 7 2 7 3 1 28 10 40 7 1 4 8 1 9 11 46 16 405 8 1 8 82 22 1 14 122 6 3 1 1
   2 1 7 1 1 66 5 1 2 1 5 347 4 19449 5 59 7 1048 1 1 55 7 4 81 1 11 2 19627 2 4705 46 2 23 2745
   55 4 50 8 1 14 1 22 5 1 15 1360 7 1 17 2 7 1 2 1 5 261 7 375 1 61 4 1504 7 109 7"

/-- Whether the neighbours of a character permit it; `before` is reversed. -/
def fits (before : List Char) (c : Char) (after : List Char) : Bool :=
  let n := c.toNat
  let whole := before ++ c :: after
  if n = 0x200C then Joining.keepsApart before after
  else if n = 0x200D then Joining.holdsTogether before
  else if n = 0xB7 then before.head? = some 'l' && after.head? = some 'l'
  else if n = 0x375 then (after.head?.map Script.greek.contains).getD false
  else if n = 0x5F3 || n = 0x5F4 then (before.head?.map Script.hebrew.contains).getD false
  else if n = 0x30FB then whole.any Script.japanese.contains
  else if 0x660 ≤ n && n ≤ 0x669 then !whole.any fun d => 0x6F0 ≤ d.toNat && d.toNat ≤ 0x6F9
  else if 0x6F0 ≤ n && n ≤ 0x6F9 then !whole.any fun d => 0x660 ≤ d.toNat && d.toNat ≤ 0x669
  else permitted.contains c

/-- Whether every character is permitted where it stands; `before` is reversed. -/
def allFit : (before : List Char) → List Char → Bool
  | _, [] => true
  | before, c :: after => fits before c after && allFit (c :: before) after

end FeltRelay.Network.Host
