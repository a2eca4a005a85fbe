/-!
# Sets of characters

A set of characters is kept as the ascending list of the code points at which membership changes.
Tables of a standard are written as run lengths: the number of code points outside the set, then
inside it, then outside again, and so on, starting from code point 0.
-/

namespace FeltRelay.Text

/-- The code points at which membership changes, ascending; below the first one nothing is in. -/
structure CharSet where
  bounds : List Nat

namespace CharSet

/-- Whether an odd number of bounds lies at or below `n`. -/
def parity (n : Nat) : List Nat → Bool
  | [] => false
  | b :: rest => if b ≤ n then !parity n rest else false

def contains (s : CharSet) (c : Char) : Bool := parity c.toNat s.bounds

/-- The numbers of a text, in order; everything that is not an ASCII digit separates. -/
def numbers : Option Nat → List Char → List Nat
  | none, [] => []
  | some n, [] => [n]
  | acc, c :: rest =>
    if '0' ≤ c ∧ c ≤ '9' then numbers (some (acc.getD 0 * 10 + (c.toNat - 48))) rest
    else match acc with
      | none => numbers none rest
      | some n => n :: numbers none rest

def sums (start : Nat) : List Nat → List Nat
  | [] => []
  | n :: rest => (start + n) :: sums (start + n) rest

/-- The set whose run lengths are written in `text`. -/
def ofRuns (text : String) : CharSet := ⟨sums 0 (numbers none text.toList)⟩

example : (ofRuns "2 3 1 1").bounds = [2, 5, 6, 7] := by decide

end CharSet

end FeltRelay.Text
