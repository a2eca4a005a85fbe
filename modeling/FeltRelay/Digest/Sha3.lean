/-!
# SHA3-256

The sponge over the permutation of 25 words of 64 bits, with a rate of 136 bytes. Words are kept
in a list, word `x + 5 y` at column `x` of row `y`.
-/

namespace FeltRelay.Digest.Sha3

/-- The 25 words. -/
abbrev State := Array UInt64

def word (s : State) (i : Nat) : UInt64 := s.getD i 0

def rotate (w : UInt64) (n : Nat) : UInt64 :=
  if n = 0 then w else (w <<< UInt64.ofNat n) ||| (w >>> UInt64.ofNat (64 - n))

/-- How far each word is turned. -/
def turns : Array Nat :=
  #[0, 1, 62, 28, 27, 36, 44, 6, 55, 20, 3, 10, 43, 25, 39, 41, 45, 15, 21, 8, 18, 2, 61, 56, 14]

def roundConstants : List UInt64 :=
  [0x0000000000000001, 0x0000000000008082, 0x800000000000808A, 0x8000000080008000,
    0x000000000000808B, 0x0000000080000001, 0x8000000080008081, 0x8000000000008009,
    0x000000000000008A, 0x0000000000000088, 0x0000000080008009, 0x000000008000000A,
    0x000000008000808B, 0x800000000000008B, 0x8000000000008089, 0x8000000000008003,
    0x8000000000008002, 0x8000000000000080, 0x000000000000800A, 0x800000008000000A,
    0x8000000080008081, 0x8000000000008080, 0x0000000080000001, 0x8000000080008008]

def build (f : Nat → UInt64) : State := Array.ofFn fun i : Fin 25 => f i.val

/-- Mixes each word with the parities of two columns. -/
def mixColumns (s : State) : State :=
  let parity := Array.ofFn fun x : Fin 5 =>
    word s x ^^^ word s (x + 5) ^^^ word s (x + 10) ^^^ word s (x + 15) ^^^ word s (x + 20)
  build fun i =>
    word s i ^^^ parity.getD ((i % 5 + 4) % 5) 0 ^^^ rotate (parity.getD ((i % 5 + 1) % 5) 0) 1

/-- Turns the words and moves them to new places. -/
def moveWords (s : State) : State :=
  build fun i =>
    let source := (i % 5 + 3 * (i / 5)) % 5 + 5 * (i % 5)
    rotate (word s source) (turns.getD source 0)

/-- Combines each word with the next two of its row. -/
def combineRows (s : State) : State :=
  build fun i =>
    let row := i / 5 * 5
    word s i ^^^ (~~~(word s (row + (i + 1) % 5)) &&& word s (row + (i + 2) % 5))

def round (s : State) (c : UInt64) : State :=
  let s := combineRows (moveWords (mixColumns s))
  s.setIfInBounds 0 (word s 0 ^^^ c)

def permute (s : State) : State := roundConstants.foldl round s

/-- The word of up to eight bytes, the first one lowest. -/
def wordOf (bytes : List UInt8) : UInt64 := bytes.foldr (fun b w => (w <<< 8) ||| b.toUInt64) 0

/-- The bytes that a call takes in. -/
def rate : Nat := 136

def absorb (s : State) (block : List UInt8) : State :=
  permute (build fun i =>
    if i < 17 then word s i ^^^ wordOf ((block.drop (8 * i)).take 8) else word s i)

/-- Fills the last block: a mark behind the bytes, a bit at the end, zeros between them. -/
def pad (bytes : List UInt8) : List UInt8 :=
  let gap := rate - bytes.length % rate
  if gap = 1 then bytes ++ [0x86] else bytes ++ 0x06 :: List.replicate (gap - 2) 0 ++ [0x80]

def absorbAll : Nat → State → List UInt8 → State
  | 0, s, _ => s
  | blocks + 1, s, bytes => absorbAll blocks (absorb s (bytes.take rate)) (bytes.drop rate)

/-- The eight bytes of a word, the lowest first. -/
def bytesOf (w : UInt64) : List UInt8 :=
  (List.range 8).map fun i => (w >>> UInt64.ofNat (8 * i)).toUInt8

/-- The digest of a sequence of bytes: 32 bytes. -/
def sum256 (bytes : List UInt8) : List UInt8 :=
  let padded := pad bytes
  let s := absorbAll (padded.length / rate) (build fun _ => 0) padded
  (List.range 4).flatMap fun i => bytesOf (word s i)

end FeltRelay.Digest.Sha3
