/-!
# The fewest digits that read back

A finite binary64 number is `mantissa · 2^exponent`. The reals that round to it form an interval,
whose ends belong to it exactly when the mantissa is even. `shortest` gives the decimal with the
fewest digits in that interval, of those the nearest to the number, and on an exact tie the even
one. All arithmetic is exact.
-/

namespace FeltRelay.Decimal

/-- A finite, non-negative binary64 number. -/
structure Binary where
  mantissa : Nat
  exponent : Int
  /-- The neighbour below is half as far away as the neighbour above. -/
  narrowBelow : Bool

/-- The size of a finite number, its sign dropped. -/
def Binary.ofFloat (x : Float) : Binary :=
  let bits := x.toBits
  let biased := ((bits >>> 52) &&& 0x7FF).toNat
  let fraction := (bits &&& 0xFFFFFFFFFFFFF).toNat
  if biased = 0 then ⟨fraction, -1074, false⟩
  else ⟨Nat.pow 2 52 + fraction, (biased : Int) - 1075, fraction = 0 && 1 < biased⟩

/-- A number is its numerator over its denominator. -/
def Binary.numerator (x : Binary) : Nat := x.mantissa * Nat.pow 2 x.exponent.toNat

/-- A power of two. -/
def Binary.denominator (x : Binary) : Nat := Nat.pow 2 (-x.exponent).toNat

def isNegative (x : Float) : Bool := x.toBits >>> 63 = 1

/-- The decimal `digits · 10^exponent`. -/
structure Scaled where
  digits : Nat
  exponent : Int
deriving Repr, DecidableEq

/-- Compares `a · 10^i` with `b · 2^j`. -/
def compareScaled (a : Nat) (i : Int) (b : Nat) (j : Int) : Ordering :=
  compare (a * Nat.pow 10 i.toNat * Nat.pow 2 (-j).toNat)
    (b * Nat.pow 2 j.toNat * Nat.pow 10 (-i).toNat)

/-- Whether a decimal lies among the reals that round to `x`. -/
def Binary.readsBack (x : Binary) (d : Scaled) : Bool :=
  let low := if x.narrowBelow then 4 * x.mantissa - 1 else 4 * x.mantissa - 2
  let high := 4 * x.mantissa + 2
  let closed := x.mantissa % 2 = 0
  let below := compareScaled d.digits d.exponent low (x.exponent - 2)
  let above := compareScaled d.digits d.exponent high (x.exponent - 2)
  (below == .gt || (closed && below == .eq)) && (above == .lt || (closed && above == .eq))

/-- The number of times `10^e` goes into `x`. -/
def Binary.quotient (x : Binary) (e : Int) : Nat :=
  x.numerator * Nat.pow 10 (-e).toNat / (x.denominator * Nat.pow 10 e.toNat)

/-- The least `k` with `x < 10^k`, looked for upwards from an estimate that is never too large. -/
def Binary.scale (x : Binary) : Int :=
  let magnitude : Int := (x.mantissa.log2 : Int) + x.exponent
  let start : Int := magnitude * 30103 / 100000 - 1
  let rec up : Nat → Int → Int
    | 0, k => k
    | fuel + 1, k =>
      if compareScaled 1 k x.mantissa x.exponent == .gt then k else up fuel (k + 1)
  up 8 start

/-- The better of the two neighbours of `x` on the grid `10^e`, if one reads back. -/
def Binary.onGrid? (x : Binary) (e : Int) : Option Scaled :=
  let low : Scaled := ⟨x.quotient e, e⟩
  let high : Scaled := ⟨x.quotient e + 1, e⟩
  match x.readsBack low, x.readsBack high with
  | true, true =>
    match compareScaled (2 * low.digits + 1) e (2 * x.mantissa) x.exponent with
    | .gt => some low
    | .lt => some high
    | .eq => if low.digits % 2 = 0 then some low else some high
  | true, false => some low
  | false, true => some high
  | false, false => none

/-- Moves trailing zeros from the digits to the exponent; `fuel` bounds their count. -/
def Scaled.strip : Nat → Scaled → Scaled
  | 0, d => d
  | fuel + 1, d =>
    if d.digits ≠ 0 ∧ d.digits % 10 = 0 then strip fuel ⟨d.digits / 10, d.exponent + 1⟩ else d

/-- The first of the grids with `n`, `n + 1`, … digits on which a neighbour reads back. -/
def Binary.search (x : Binary) (k : Int) : Nat → Nat → Option Scaled
  | 0, _ => none
  | fuel + 1, n => (x.onGrid? (k - n)).orElse fun _ => x.search k fuel (n + 1)

/-- The fewest digits that read back to a positive number, the nearest of those to it. Seventeen
digits suffice for every binary64 number. -/
def shortest (x : Binary) : Scaled :=
  match x.search x.scale 17 1 with
  | some d => d.strip 17
  | none =>
    ⟨x.numerator * Nat.pow 5 (-x.exponent).toNat,
      if x.exponent < 0 then x.exponent else 0⟩

end FeltRelay.Decimal
