import FeltRelay.Failure

/-!
# Emissions

What an encoder has written so far, and the failure that stopped it, if one did. What was written
before a failure stays.
-/

namespace FeltRelay.Codec

/-- Items written, and why writing stopped early. -/
structure Emission (α : Type) where
  items : List α
  fault : Option Failure := none

namespace Emission

variable {α : Type}

def write (items : List α) : Emission α := ⟨items, none⟩

def stop (f : Failure) : Emission α := ⟨[], some f⟩

/-- Writing what a computation gives, or stopping where it fails. -/
def ofExcept : Except Failure (List α) → Emission α
  | .ok items => write items
  | .error f => stop f

/-- Writing on, unless stopped. -/
def followedBy (e : Emission α) (next : Unit → Emission α) : Emission α :=
  match e.fault with
  | some _ => e
  | none => ⟨e.items ++ (next ()).items, (next ()).fault⟩

/-- All items, if nothing stopped the writing. -/
def result (e : Emission α) : Except Failure (List α) :=
  match e.fault with
  | some f => .error f
  | none => .ok e.items

@[simp] theorem result_write (items : List α) : (write items).result = .ok items := rfl

@[simp] theorem result_stop (f : Failure) : (stop f : Emission α).result = .error f := rfl

@[simp] theorem result_ofExcept (r : Except Failure (List α)) : (ofExcept r).result = r := by
  cases r <;> rfl

/-- What follows is written only after success, and both parts are kept in order. -/
theorem result_followedBy (e : Emission α) (next : Unit → Emission α) :
    (e.followedBy next).result = (do
      let xs ← e.result
      let ys ← (next ()).result
      return xs ++ ys) := by
  unfold followedBy result
  cases h : e.fault with
  | some f =>
    simp only [h]
    rfl
  | none =>
    cases h' : (next ()).fault with
    | some f => rfl
    | none => rfl

end Emission

end FeltRelay.Codec
