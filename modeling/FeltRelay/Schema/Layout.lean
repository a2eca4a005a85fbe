import FeltRelay.Schema.Model

/-!
# Layout on the wire

The fewest elements that a value of a type occupies, and the comparison of two message types by
layout: types match position by position, nested messages by their fields and not by their names,
enumerations by the number of their variants.
-/

namespace FeltRelay.Schema.Model

/-! ### Width -/

/-- The width of a type, `ofMessage` giving that of a message. -/
def widthTy (ofMessage : String → Except Failure Nat) : Ty → Except Failure Nat
  | .scalar s => .ok (if s.isByteString then 3 else 1)
  | .message n => ofMessage n
  | _ => .ok 1

/-- The width of a message, its plain messages looked into `budget` deep. -/
def widthMessage (m : Model) : Nat → String → Except Failure Nat
  | 0, _ => .ok 0
  | budget + 1, name => do
    let spec ← m.message name
    let widths ← spec.fields.mapM fun f => widthTy (m.widthMessage budget) f.type
    return widths.sum

/-- The fewest elements that a value of a type occupies. No chain of plain messages is longer than
the number of messages. -/
def minWidth (m : Model) (t : Ty) : Except Failure Nat :=
  widthTy (m.widthMessage (m.messages.length + 1)) t

/-! ### Comparison -/

/-- Pairs of message names that are under comparison or were found to match. -/
abbrev Pairs := List (String × String)

/-- Compares two types, `ofMessages` comparing messages. -/
def sameTy (m : Model) (ofMessages : String → String → Pairs → Bool × Pairs) :
    Ty → Ty → Pairs → Bool × Pairs
  | .scalar s, .scalar t, seen => (s = t, seen)
  | .enum a, .enum b, seen =>
    ((m.enum? a).map (·.variants.length) = (m.enum? b).map (·.variants.length), seen)
  | .optional s, .optional t, seen => m.sameTy ofMessages s t seen
  | .array s, .array t, seen => m.sameTy ofMessages s t seen
  | .message a, .message b, seen => ofMessages a b seen
  | _, _, seen => (false, seen)

/-- Compares lists of types position by position, up to the first difference. -/
def sameAll (same : Ty → Ty → Pairs → Bool × Pairs) : List Ty → List Ty → Pairs → Bool × Pairs
  | [], [], seen => (true, seen)
  | s :: ss, t :: ts, seen =>
    match same s t seen with
    | (true, seen) => sameAll same ss ts seen
    | (false, seen) => (false, seen)
  | _, _, seen => (false, seen)

def fieldTypes (m : Model) (name : String) : List Ty :=
  match m.message? name with
  | some spec => spec.fields.map (·.type)
  | none => []

/-- Compares two messages. A pair that is under comparison already holds unless another position
disagrees, so each pair is looked into once; `budget` bounds their number. -/
def sameMessages (m : Model) : Nat → String → String → Pairs → Bool × Pairs
  | 0, _, _, seen => (true, seen)
  | budget + 1, a, b, seen =>
    if seen.contains (a, b) then (true, seen)
    else if (m.fieldTypes a).length = (m.fieldTypes b).length then
      sameAll (m.sameTy (m.sameMessages budget)) (m.fieldTypes a) (m.fieldTypes b) ((a, b) :: seen)
    else (false, (a, b) :: seen)

/-- Whether two messages have one layout. -/
def wireCompatible (m : Model) (a b : String) : Except Failure Bool := do
  let a ← m.message a
  let b ← m.message b
  return (m.sameMessages (m.messages.length * m.messages.length + 1) a.name b.name []).1

end FeltRelay.Schema.Model
