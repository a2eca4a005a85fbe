/-!
# Scalar kinds

The kinds of value that occupy one element (booleans, integers of fixed width, field elements) and
the two byte strings, text and raw bytes.
-/

namespace FeltRelay.Schema

inductive Width where
  | w8 | w16 | w32 | w64 | w128
deriving DecidableEq, Repr, Inhabited

def Width.bits : Width → Nat
  | w8 => 8
  | w16 => 16
  | w32 => 32
  | w64 => 64
  | w128 => 128

inductive Scalar where
  | bool
  | unsigned (w : Width)
  | signed (w : Width)
  | felt
  | text
  | bytes
deriving DecidableEq, Repr, Inhabited

namespace Scalar

def name : Scalar → String
  | bool => "bool"
  | unsigned .w8 => "u8"
  | unsigned .w16 => "u16"
  | unsigned .w32 => "u32"
  | unsigned .w64 => "u64"
  | unsigned .w128 => "u128"
  | signed .w8 => "i8"
  | signed .w16 => "i16"
  | signed .w32 => "i32"
  | signed .w64 => "i64"
  | signed .w128 => "i128"
  | felt => "felt252"
  | text => "string"
  | bytes => "bytes"

def all : List Scalar :=
  [bool, unsigned .w8, unsigned .w16, unsigned .w32, unsigned .w64, unsigned .w128, signed .w8,
    signed .w16, signed .w32, signed .w64, signed .w128, felt, text, bytes]

def ofName? (s : String) : Option Scalar := all.find? (·.name = s)

/-- The width in bits; a byte string has none. -/
def bits : Scalar → Nat
  | bool => 1
  | unsigned w | signed w => w.bits
  | felt => 252
  | text | bytes => 0

def isSigned : Scalar → Bool
  | signed _ => true
  | _ => false

/-- An integer of fixed width. -/
def isInteger : Scalar → Bool
  | unsigned _ | signed _ => true
  | _ => false

/-- Text or raw bytes. -/
def isByteString : Scalar → Bool
  | text | bytes => true
  | _ => false

def least : Scalar → Int
  | signed w => -(Nat.pow 2 (w.bits - 1) : Nat)
  | _ => 0

def greatest : Scalar → Int
  | signed w => (Nat.pow 2 (w.bits - 1) : Nat) - 1
  | unsigned w => (Nat.pow 2 w.bits : Nat) - 1
  | _ => 0

theorem mem_all (s : Scalar) : s ∈ all := by
  cases s with
  | unsigned w => cases w <;> decide
  | signed w => cases w <;> decide
  | _ => decide

/-- The name of a kind leads back to it. -/
theorem ofName?_name (s : Scalar) : ofName? s.name = some s := by
  cases s with
  | unsigned w => cases w <;> rfl
  | signed w => cases w <;> rfl
  | _ => rfl

end Scalar

end FeltRelay.Schema
