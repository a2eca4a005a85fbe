import FeltRelay.Codec.Flat.Decode
import FeltRelay.Proofs.Schema.Containment
import FeltRelay.Proofs.Schema.WellFormed

/-!
# The depth of flat decoding

The depth that the decoder allows itself is paid by the elements that it reads and, between two of
them, by the height of a message over those that it contains. So it is never used up.
-/

namespace FeltRelay.Codec.Flat

open FeltRelay.Schema

/-- How many messages a decoder has to enter before it reads an element of a type. -/
def heightTy (height : String → Nat) : Ty → Nat
  | .message name => height name + 1
  | _ => 0

/-- The depth that reading some elements of a type takes. -/
def need (m : Model) (height : String → Nat) (t : Ty) (length : Nat) : Nat :=
  (m.messages.length + 1) * length + heightTy height t

variable {m : Model} {height : String → Nat}

theorem heightTy_le (hm : ∀ a, height a ≤ m.messages.length) (t : Ty) :
    heightTy height t ≤ m.messages.length + 1 := by
  cases t with
  | message name => exact Nat.succ_le_succ (hm name)
  | _ => exact Nat.zero_le _

/-- An element that was read pays for any message behind it. -/
theorem need_of_lt (hm : ∀ a, height a ≤ m.messages.length) {t t' : Ty} {k n depth : Nat}
    (hk : k < n) (h : need m height t n ≤ depth) : need m height t' k ≤ depth := by
  have hpay : (m.messages.length + 1) * k + (m.messages.length + 1) ≤
      (m.messages.length + 1) * n := by
    rw [← Nat.mul_succ]
    exact Nat.mul_le_mul_left _ hk
  have := heightTy_le hm t'
  unfold need at h ⊢
  omega

/-- A field is lower than the message that it belongs to. -/
theorem heightTy_lt_of_field (hm : ∀ a b, m.Contains a b → height b < height a) {name : String}
    {spec : Message} (hspec : m.message? name = some spec) {f : Field} (hf : f ∈ spec.fields) :
    heightTy height f.type < heightTy height (.message name) := by
  cases ht : f.type with
  | message inner =>
    have hc : m.Contains name inner := by
      refine ⟨f.name, ?_⟩
      rw [Model.plainFields, hspec]
      exact List.mem_filterMap.2 ⟨f, hf, by rw [ht]; rfl⟩
    exact Nat.succ_lt_succ (hm name inner hc)
  | _ => exact Nat.succ_pos _

/-- The first elements of a message are those of a field that is lower, if it is a message. -/
theorem need_field (hm : ∀ a b, m.Contains a b → height b < height a) {name : String}
    {spec : Message} (hspec : m.message? name = some spec) {f : Field} (hf : f ∈ spec.fields)
    {k n depth : Nat} (hk : k ≤ n) (h : need m height (.message name) n ≤ depth + 1) :
    need m height f.type k ≤ depth := by
  have hlen : (m.messages.length + 1) * k ≤ (m.messages.length + 1) * n := Nat.mul_le_mul_left _ hk
  have hlow := heightTy_lt_of_field hm hspec hf
  unfold need at h ⊢
  omega

/-- A message cannot be entered without depth. -/
theorem need_message_pos {name : String} {n depth : Nat}
    (h : need m height (.message name) n ≤ depth) : ∃ k, depth = k + 1 := by
  have hname : heightTy height (.message name) = height name + 1 := rfl
  refine ⟨depth - 1, ?_⟩
  unfold need at h
  omega

/-- The depth for the elements at hand suffices for the first ones of them. -/
theorem need_le_nestingBound (hm : ∀ a, height a ≤ m.messages.length) (t : Ty) {k n : Nat}
    (hk : k ≤ n) : need m height t k ≤ nestingBound m n := by
  have hlen := Nat.mul_le_mul_left (m.messages.length + 1) hk
  have := heightTy_le hm t
  unfold need nestingBound
  rw [Nat.mul_succ]
  omega

end FeltRelay.Codec.Flat
