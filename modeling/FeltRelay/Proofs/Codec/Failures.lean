import FeltRelay.Proofs.Codec.Agreement
import FeltRelay.Proofs.Codec.Event.Continued
import FeltRelay.Proofs.Codec.Flat.Valid
import FeltRelay.Proofs.Codec.Unchecked

/-!
# How the codec fails

Under a model that was read an encoder fails for the value alone, in one of three ways, and a
decoder fails for the sequence alone, in one of those that belong to decoding. Neither misses a declaration,
and neither is stopped by anything that the library does not describe.
-/

namespace FeltRelay.Codec

open FeltRelay.Schema

variable {m : Model} {modulus : Int} {t : Ty}

/-! ### Encoding -/

/-- What may be at fault with a value. -/
def IsValueFault (kind : Failure.Kind) : Prop :=
  kind = .typeMismatch ∨ kind = .rangeOverflow ∨ kind = .unknownVariant

theorem ScalarFault.isValueFault {s : Scalar} {v : Json} {kind : Failure.Kind}
    (h : ScalarFault modulus s v kind) : IsValueFault kind := by
  have number (h : NumberFault (InRange modulus s) v kind) : IsValueFault kind := by
    rcases h with ⟨-, h⟩ | ⟨-, h⟩
    · exact .inl h
    · exact .inr (.inl h)
  cases s with
  | bool | text | bytes => exact .inl h.2
  | _ => exact number h

theorem FirstFault.isValueFault {path place : String} {v : Json} {kind : Failure.Kind}
    (h : FirstFault m modulus t path v place kind) : IsValueFault kind := by
  induction h with
  | scalar h => exact h.isValueFault
  | optional _ _ ih => exact ih
  | item _ _ ih => exact ih
  | field _ _ _ _ _ _ ih => exact ih
  | notVariant _ _ => exact .inr (.inr rfl)
  | notArray _ | notName _ | notObject _ | unknownMember _ _ _ | missing _ _ _ _ _ _ =>
    exact .inl rfl

theorem Flat.isValueFault_of_encode (hp : modulus ≠ 0) (hm : m.Closed) (ht : t.Declared m)
    {v : Json} {f : Failure} (h : Flat.encode m modulus t v = .error f) : IsValueFault f.kind := by
  have hjudged := Flat.judged_encode hp hm ht v
  rw [h] at hjudged
  obtain ⟨place, -, hfault⟩ := hjudged
  exact hfault.isValueFault

theorem Event.isValueFault_of_encode (hp : modulus ≠ 0) (hm : m.Closed) (ht : t.Declared m)
    {v : Json} {f : Failure} (h : Event.encode m modulus t v = .error f) : IsValueFault f.kind := by
  have hagree : Agrees _ (Flat.encode m modulus t v) (Event.encode m modulus t v) :=
    agrees_encode t v
  rw [h] at hagree
  cases hflat : Flat.encode m modulus t v with
  | ok xs =>
    rw [hflat] at hagree
    cases hagree
  | error g =>
    rw [hflat] at hagree
    rw [← hagree.1]
    exact Flat.isValueFault_of_encode hp hm ht hflat

/-! ### Decoding -/

theorem Flat.kind_of_decode (hm : m.Sound) (ht : t.Declared m) {items : List Json}
    {position : Nat} {f : Failure} (h : Flat.decode m modulus t items position = .error f) :
    f.kind.isWithin .decode = true := by
  have hcont : Continues [] 0 (Flat.read m modulus t) (Flat.read m modulus t) _ :=
    Flat.continues_read hm ht (.from items position)
  rcases bind_eq_error_iff.1 h with hrun | ⟨r, -, hret⟩
  · exact (hcont.run_error hrun).1
  · cases hret

theorem Flat.kind_of_decodeExact (hm : m.Sound) (ht : t.Declared m) {items : List Json}
    {f : Failure} (h : Flat.decodeExact m modulus t items = .error f) :
    f.kind.isWithin .decode = true := by
  rcases bind_eq_error_iff.1 h with hdecode | ⟨⟨v, count⟩, -, hleft⟩
  · exact Flat.kind_of_decode hm ht hdecode
  · dsimp only at hleft
    split at hleft <;> cases hleft
    rfl

theorem Event.kind_of_decode (hm : m.Closed) (ht : t.Declared m) {items : List Json}
    {f : Failure} (h : Event.decode m modulus t items = .error f) :
    f.kind.isWithin .decode = true := by
  have hcont : Continues [] 1 (Event.read m modulus t) (Event.read m modulus t) _ :=
    Event.continues_read hm ht (.from items 0)
  rcases bind_eq_error_iff.1 h with hrun | ⟨⟨v, s⟩, -, hleft⟩
  · exact (hcont.run_error hrun).1
  · dsimp only at hleft
    split at hleft <;> cases hleft
    rfl

/-- What stops a result of the library is a failure of its own. -/
theorem of_ofExcept_error {α : Type} {r : Except Failure α} {p : Problem}
    (h : Attempt.ofExcept r = .error p) : ∃ f, r = .error f ∧ p = .failure f := by
  cases r with
  | ok a => cases h
  | error f =>
    cases h
    exact ⟨f, rfl, rfl⟩

theorem Flat.problem_of_decodeAt (hm : m.Sound) (ht : t.Declared m) {items : List Json}
    {cursor : Int} (hcursor : 0 ≤ cursor) {p : Problem}
    (h : Flat.decodeAt m modulus t items cursor = .error p) :
    ∃ f, p = .failure f ∧ f.kind.isWithin .decode = true := by
  obtain ⟨position, rfl⟩ := Int.eq_ofNat_of_zero_le hcursor
  obtain ⟨f, hf, rfl⟩ := of_ofExcept_error h
  exact ⟨f, rfl, Flat.kind_of_decode hm ht hf⟩

/-- Indices into a byte string whose elements were checked lead nowhere else. -/
theorem problem_of_unpackBytes {items : List Json} {place count : Nat} {words : List Nat}
    (hcheck : Flat.checkElements modulus place ((items.drop place).take (count + 3)) =
      .ok (count :: words)) {p : Problem} (h : Unchecked.unpackBytes items place = .error p) :
    ∃ f, p = .failure f ∧ f.kind.isWithin .decode = true := by
  rw [Unchecked.unpackBytes_of_checked hcheck] at h
  obtain ⟨f, hf, rfl⟩ := of_ofExcept_error h
  refine ⟨f, rfl, ?_⟩
  cases hunpack : unpackBytes place (count :: words) with
  | ok r =>
    rw [hunpack] at hf
    cases hf
  | error g =>
    rw [hunpack] at hf
    cases hf
    exact kind_of_unpackBytes hunpack

/-! ### The whole codec -/

end FeltRelay.Codec
