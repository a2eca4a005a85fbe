import FeltRelay.Failure

/-!
# Input of a decoder

The items that are still to be read and the number of those read before. A decoder moves along the
input or stops with a failure.
-/

namespace FeltRelay.Codec

/-- What is left of a sequence, and how far in it starts. -/
structure Input where
  rest : List Json
  position : Nat

abbrev Decoder := StateT Input (Except Failure)

/-- The input that begins at a position of a sequence. -/
def Input.from (items : List Json) (position : Nat) : Input := ⟨items.drop position, position⟩

def Input.advance (s : Input) (count : Nat) : Input := ⟨s.rest.drop count, s.position + count⟩

def readTimes (read : Decoder Json) : Nat → Decoder (List Json)
  | 0 => return []
  | n + 1 => do
    let v ← read
    return v :: (← readTimes read n)

end FeltRelay.Codec
