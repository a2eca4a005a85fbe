import FeltRelay.Text.Numeral

/-!
# Punycode

A text in ASCII letters, digits and hyphens: first its ASCII characters, a hyphen behind them if
there are any, then for each other character, in ascending order, how many places are passed until
it is put in. The counts are numbers in base 36 of mixed weight, the least digit first; how far a
digit weighs follows the counts before it.
-/

namespace FeltRelay.Text.Punycode

/-- Scales a count down to the next bias; `fuel` bounds the number of divisions. -/
def scaled : (fuel k delta : Nat) → Nat
  | 0, k, _ => k
  | fuel + 1, k, delta =>
    if 455 < delta then scaled fuel (k + 36) (delta / 35) else k + 36 * delta / (delta + 38)

/-- The bias after a count: `size` characters are there, and the count was the first one or not. -/
def adapt (delta size : Nat) (first : Bool) : Nat :=
  let delta := if first then delta / 700 else delta / 2
  let delta := delta + delta / size
  scaled delta 0 delta

def threshold (k bias : Nat) : Nat := if k ≤ bias + 1 then 1 else min 26 (k - bias)

/-! ### Writing -/

/-- A digit in base 36, letters first. -/
def digit (d : Nat) : Char := Char.ofNat (if d < 26 then 97 + d else 22 + d)

/-- The digits of a count; `fuel` bounds how many there are. -/
def writeCount (bias : Nat) : (fuel k delta : Nat) → List Char
  | 0, _, _ => []
  | fuel + 1, k, delta =>
    let t := threshold k bias
    if delta < t then [digit delta]
    else
      digit (t + (delta - t) % (36 - t)) ::
        writeCount bias fuel (k + 36) ((delta - t) / (36 - t))

/-- A text that is being written: places passed, bias, characters put in, and what is written. -/
structure Writer where
  delta : Nat
  bias : Nat
  size : Nat
  text : List Char

/-- Passes a character of the text, or puts it in if it is the one in turn. -/
def Writer.pass (basic code : Nat) (w : Writer) (c : Nat) : Writer :=
  if c < code then { w with delta := w.delta + 1 }
  else if c = code then
    ⟨0, adapt w.delta (w.size + 1) (w.size = basic), w.size + 1,
      w.text ++ writeCount w.bias (w.delta + 1) 36 w.delta⟩
  else w

/-- Goes on with the next greater characters. -/
def Writer.step (codes : List Nat) (basic : Nat) (w : Writer × Nat) (code : Nat) : Writer × Nat :=
  let passed := { w.1 with delta := w.1.delta + (code - w.2) * (w.1.size + 1) }
  let w := codes.foldl (Writer.pass basic code) passed
  ({ w with delta := w.delta + 1 }, code + 1)

/-- Puts a number in its place among ascending ones, unless it is there. -/
def insertOnce (n : Nat) : List Nat → List Nat
  | [] => [n]
  | m :: rest =>
    if n < m then n :: m :: rest else if n = m then m :: rest else m :: insertOnce n rest

def encode (s : List Char) : List Char :=
  let codes := s.map Char.toNat
  let basic := s.filter (·.toNat < 128)
  let start : Writer :=
    ⟨0, 72, basic.length, if basic.isEmpty then [] else basic ++ ['-']⟩
  let others := (codes.filter (128 ≤ ·)).foldr insertOnce []
  (others.foldl (Writer.step codes basic.length) (start, 128)).1.text

/-! ### Reading -/

/-- The value of a digit, in either case. -/
def digitValue? (c : Char) : Option Nat :=
  if c.isDigit then some (c.toNat - 22)
  else (digitIn? 36 c).map (· - 10)

/-- A text that is being read: its characters, the one in turn, the place behind the last one that
was put in, the bias, and the count so far with the weight and the place of its next digit. -/
structure Reader where
  text : List Nat
  code : Nat := 128
  position : Nat := 0
  bias : Nat := 72
  first : Bool := true
  count : Nat := 0
  weight : Nat := 1
  k : Nat := 36

/-- Puts a character in when its count is complete. -/
def Reader.put (r : Reader) (delta : Nat) : Reader :=
  let places := r.text.length + 1
  let i := r.position + delta
  let code := r.code + i / places
  let position := i % places
  { text := r.text.take position ++ code :: r.text.drop position
    code, position := position + 1
    bias := adapt delta places r.first
    first := false }

def Reader.step (r : Reader) (c : Char) : Option Reader :=
  (digitValue? c).bind fun d =>
    let count := r.count + d * r.weight
    let t := threshold r.k r.bias
    if d < t then
      let r := r.put count
      if r.code < 0x110000 then some r else none
    else some { r with count, weight := r.weight * (36 - t), k := r.k + 36 }

/-- Reads digits up to the end, where a count has to be complete. -/
def Reader.finish (r : Reader) : List Char → Option (List Nat)
  | [] => if r.k = 36 then some r.text else none
  | c :: rest => (r.step c).bind fun r => r.finish rest

/-- The character of a number; numbers that are reserved for halves of characters have none. -/
def char? (n : Nat) : Option Char := if h : n.isValidChar then some (Char.ofNatAux n h) else none

/-- The text that Punycode stands for, if it stands for one. -/
def decode? (s : List Char) : Option (List Char) :=
  let digits := (s.reverse.takeWhile (· ≠ '-')).reverse
  let basic := (s.take (s.length - digits.length)).dropLast
  (Reader.finish { text := basic.map Char.toNat } digits).bind (·.mapM char?)

example : String.ofList (encode "bücher".toList) = "bcher-kva" := by decide +kernel
example : String.ofList (encode "日本".toList) = "wgv71a" := by decide +kernel
example : (decode? "bcher-kva".toList).map String.ofList = some "bücher" := by decide +kernel
example : decode? "wgv7".toList = none := by decide +kernel

end FeltRelay.Text.Punycode
