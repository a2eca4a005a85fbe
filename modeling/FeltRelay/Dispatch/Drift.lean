import FeltRelay.Schema.Lock
import FeltRelay.Text.Case
import FeltRelay.Text.Literal

/-!
# Schema drift

Generated code carries the hash of the schema it was generated from. Before any call it is compared
with the hash of the lock: as a text of all 64 hexadecimal digits, or as the field element that is
made of the first 31 bytes.
-/

namespace FeltRelay.Dispatch

open FeltRelay.Schema FeltRelay.Text

/-- A hash as generated code or a person gives it. -/
inductive ExpectedHash where
  | text (text : String)
  | element (value : Int)
deriving DecidableEq, Repr

/-- A text without `0x` in front. -/
def dropMark (s : List Char) : List Char := if ['0', 'x'].isPrefixOf s then s.drop 2 else s

/-- The digits of a text that spells a hash: blanks around it, the mark and the case of letters do
not count. -/
def hashDigits (text : String) : List Char := dropMark (lower (trim text)).toList

/-- The element that a text or an integer stands for. -/
def ExpectedHash.element? : ExpectedHash → Option Int
  | text s => literal? s
  | element i => some i

/-- Compares an expected hash, given as an element, with that of a lock. -/
def checkElement (expected : ExpectedHash) (lock : Lock) : Except Failure Unit :=
  let held : Int := ((hashElement? lock.hash).getD 0 : Nat)
  match expected.element?, expected with
  | some want, _ =>
    if want = held then .ok () else .error (.schemaDrift (signedHex want) (signedHex held))
  | none, .text s => .error (.schemaDrift s (signedHex held))
  | none, .element i => .error (.schemaDrift (integer i) (signedHex held))

/-- Compares an expected hash with that of a lock. -/
def checkDrift (expected : ExpectedHash) (lock : Lock) : Except Failure Unit :=
  match expected with
  | .text s =>
    if (hashDigits s).length = 64 then
      if hashDigits s = dropMark lock.hash.toList then .ok ()
      else .error (.schemaDrift s lock.hash)
    else checkElement expected lock
  | .element _ => checkElement expected lock

end FeltRelay.Dispatch
