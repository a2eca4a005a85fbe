import FeltRelay.Proofs.Codec.Normal
import FeltRelay.Proofs.Result
import Mathlib.Tactic.Linarith

/-!
# Scalars and elements

Below a modulus above `2^129` a scalar value and its element determine each other: the element of a
value lies in the field and reads back as the value (`ofElement_toElement`), and a value that was
read from an element has that element (`toElement_ofElement`).
-/

namespace FeltRelay.Codec

open FeltRelay.Schema FeltRelay.Text

variable {modulus : Int}

/-! ### Elements of a sequence -/

theorem checkElement_int {i : Int} (offset : Int) (h0 : 0 ≤ i) (h : i < modulus) :
    checkElement modulus offset (.int i) = .ok i.toNat := by
  rw [checkElement, if_pos ⟨h0, h⟩]

theorem checkElement_eq_ok {offset : Int} {v : Json} {n : Nat}
    (h : checkElement modulus offset v = .ok n) : v = .int n ∧ (n : Int) < modulus := by
  cases v with
  | int i =>
    rw [checkElement] at h
    split at h
    · rename_i hi
      cases h
      rw [Int.toNat_of_nonneg hi.1]
      exact ⟨rfl, hi.2⟩
    · cases h
  | _ => cases h

/-! ### The range of a kind -/

theorem least_le (s : Scalar) : -2 ^ 127 ≤ s.least := by
  cases s with
  | signed w => cases w <;> decide
  | _ => exact (by decide : (-2 ^ 127 : Int) ≤ 0)

theorem greatest_lt (s : Scalar) : s.greatest < 2 ^ 128 := by
  cases s with
  | signed w => cases w <;> decide
  | unsigned w => cases w <;> decide
  | _ => exact (by decide : (0 : Int) < 2 ^ 128)

theorem least_eq_zero {s : Scalar} (h : s.isSigned = false) : s.least = 0 := by
  cases s with
  | signed w => cases h
  | _ => rfl

theorem greatest_lt_of_isSigned {s : Scalar} (h : s.isSigned = true) : s.greatest < 2 ^ 127 := by
  cases s with
  | signed w => cases w <;> decide
  | _ => cases h

/-- The residue of an integer of a kind lies in the field and stands for the integer. -/
theorem signedValue_fmod (hp : 2 ^ 129 < modulus) {s : Scalar} {i : Int} (hl : s.least ≤ i)
    (hg : i ≤ s.greatest) :
    0 ≤ i.fmod modulus ∧ i.fmod modulus < modulus ∧
      signedValue modulus s (i.fmod modulus) = i := by
  have hleast := least_le s
  have hgreatest := greatest_lt s
  have hmod : i.fmod modulus = i % modulus := Int.fmod_eq_emod_of_nonneg i (by omega)
  by_cases h0 : 0 ≤ i
  · have hi : i % modulus = i := Int.emod_eq_of_lt h0 (by omega)
    rw [hmod, hi]
    refine ⟨h0, by omega, ?_⟩
    unfold signedValue
    split
    · rename_i h
      have := greatest_lt_of_isSigned h.1
      omega
    · rfl
  · have hs : s.isSigned = true := by
      by_contra hs
      have := least_eq_zero (Bool.eq_false_of_not_eq_true hs)
      omega
    have hi : i % modulus = i + modulus := by
      rw [← Int.add_emod_right]
      exact Int.emod_eq_of_lt (by omega) (by omega)
    rw [hmod, hi]
    refine ⟨by omega, by omega, ?_⟩
    rw [signedValue, if_pos ⟨hs, by omega⟩]
    omega

/-- The element that stands for an integer of a kind is its residue. -/
theorem fmod_signedValue (hp : 2 ^ 129 < modulus) {s : Scalar} {e : Int} (h0 : 0 ≤ e)
    (he : e < modulus) : (signedValue modulus s e).fmod modulus = e := by
  rw [Int.fmod_eq_emod_of_nonneg _ (by omega)]
  unfold signedValue
  split
  · rw [Int.sub_emod_right]
    exact Int.emod_eq_of_lt h0 he
  · exact Int.emod_eq_of_lt h0 he

/-! ### Values of a kind -/

/-- A kind of one element is a truth value, a field value or an integer of fixed width. -/
theorem isInteger_of {s : Scalar} (hs : s.isByteString = false) (hb : s ≠ .bool)
    (hf : s ≠ .felt) : s.isInteger = true := by
  cases s with
  | signed w => rfl
  | unsigned w => rfl
  | bool => exact absurd rfl hb
  | felt => exact absurd rfl hf
  | text => cases hs
  | bytes => cases hs

/-- The element of an integer of fixed width. -/
theorem toElement_of_isInteger {s : Scalar} (hs : s.isInteger = true) (path : String) (v : Json) :
    toElement modulus s path v = (do
      let i ← readInteger path v
      if ¬(s.least ≤ i ∧ i ≤ s.greatest) then
        throw (.rangeOverflow path
          (s.name ++ " out of range [" ++ integer s.least ++ ", " ++ integer s.greatest ++ "]") i)
      else if modulus = 0 then throw (.emptyField path)
      else return i.fmod modulus) := by
  cases s with
  | signed w => rfl
  | unsigned w => rfl
  | _ => cases hs

theorem toElement_integer {s : Scalar} (hs : s.isInteger = true) (hp : modulus ≠ 0) {path : String}
    {v : Json} {e : Int} :
    toElement modulus s path v = .ok e ↔
      ∃ i, readInteger path v = .ok i ∧ s.least ≤ i ∧ i ≤ s.greatest ∧ i.fmod modulus = e := by
  rw [toElement_of_isInteger hs, bind_eq_ok_iff]
  refine exists_congr fun i => and_congr_right fun _ => ?_
  by_cases hr : s.least ≤ i ∧ i ≤ s.greatest
  · rw [if_neg (not_not.2 hr), if_neg hp]
    simp [hr]
  · rw [if_pos hr]
    constructor
    · intro h
      cases h
    · rintro ⟨h1, h2, -⟩
      exact absurd ⟨h1, h2⟩ hr

theorem ofElement_integer {s : Scalar} (hs : s.isInteger = true) (offset element : Int) :
    ofElement modulus s offset element =
      if s.least ≤ signedValue modulus s element ∧ signedValue modulus s element ≤ s.greatest then
        .ok (.int (signedValue modulus s element))
      else .error (.elementOutOfRange offset ("element does not fit " ++ s.name)
        [("element", element)]) := by
  cases s with
  | signed w => rfl
  | unsigned w => rfl
  | _ => cases hs

theorem normalScalar_integer {s : Scalar} (hs : s.isInteger = true ∨ s = .felt) {path : String}
    {v : Json} {i : Int} (h : readInteger path v = .ok i) : normalScalar s v = .int i := by
  have h' := readInteger_path h "$"
  cases s with
  | signed w => simp only [normalScalar, h']
  | unsigned w => simp only [normalScalar, h']
  | felt => simp only [normalScalar, h']
  | _ => simp [Scalar.isInteger] at hs

/-- The element of a value lies in the field and reads back as the value. -/
theorem ofElement_toElement (hp : 2 ^ 129 < modulus) {s : Scalar} (hs : s.isByteString = false)
    {path : String} {v : Json} {e : Int} (h : toElement modulus s path v = .ok e) (offset : Int) :
    0 ≤ e ∧ e < modulus ∧ ofElement modulus s offset e = .ok (normalScalar s v) := by
  by_cases hb : s = .bool
  · subst hb
    cases v with
    | bool b =>
      cases h
      cases b
      · exact ⟨by decide, by omega, rfl⟩
      · exact ⟨by decide, by simp only [if_true]; omega, rfl⟩
    | _ => cases h
  by_cases hf : s = .felt
  · subst hf
    obtain ⟨i, hi, hret⟩ := bind_eq_ok_iff.1 h
    split at hret
    · rename_i hrange
      cases hret
      exact ⟨hrange.1, hrange.2, by rw [normalScalar_integer (.inr rfl) hi]; rfl⟩
    · cases hret
  have hint := isInteger_of hs hb hf
  obtain ⟨i, hi, hl, hg, rfl⟩ := (toElement_integer hint (by omega)).1 h
  obtain ⟨h0, hlt, hback⟩ := signedValue_fmod hp hl hg
  refine ⟨h0, hlt, ?_⟩
  rw [ofElement_integer hint, hback, if_pos ⟨hl, hg⟩, normalScalar_integer (.inl hint) hi]

/-- A value that was read from an element has that element. -/
theorem toElement_ofElement (hp : 2 ^ 129 < modulus) {s : Scalar} (hs : s.isByteString = false)
    {offset e : Int} {v : Json} (h0 : 0 ≤ e) (he : e < modulus)
    (h : ofElement modulus s offset e = .ok v) (path : String) :
    toElement modulus s path v = .ok e := by
  by_cases hb : s = .bool
  · subst hb
    rw [ofElement] at h
    split at h
    · rename_i he
      cases h
      rcases he with rfl | rfl <;> rfl
    · cases h
  by_cases hf : s = .felt
  · subst hf
    cases h
    rw [toElement, readInteger, ok_bind, if_pos ⟨h0, he⟩]
    rfl
  have hint := isInteger_of hs hb hf
  rw [ofElement_integer hint] at h
  split at h
  · rename_i hr
    cases h
    exact (toElement_integer hint (by omega)).2 ⟨_, rfl, hr.1, hr.2, fmod_signedValue hp h0 he⟩
  · cases h

/-- An element that a kind does not have is out of range. -/
theorem fault_of_ofElement {s : Scalar} {offset e : Int} {f : Failure}
    (h : ofElement modulus s offset e = .error f) : f.kind = .elementOutOfRange := by
  unfold ofElement at h
  split at h
  · split at h <;> cases h
    rfl
  · cases h
  · dsimp only at h
    split at h <;> cases h
    rfl

/-- What is read from an element is a truth value or an integer. -/
theorem of_ofElement {s : Scalar} {offset e : Int} {v : Json}
    (h : ofElement modulus s offset e = .ok v) : (∃ b, v = .bool b) ∨ ∃ i, v = .int i := by
  unfold ofElement at h
  split at h
  · split at h <;> cases h
    exact .inl ⟨_, rfl⟩
  · cases h
    exact .inr ⟨_, rfl⟩
  · dsimp only at h
    split at h <;> cases h
    exact .inr ⟨_, rfl⟩

theorem ofElement_ne_null {s : Scalar} {offset e : Int} {v : Json}
    (h : ofElement modulus s offset e = .ok v) : v ≠ .null := by
  rintro rfl
  rcases of_ofElement h with ⟨b, hb⟩ | ⟨i, hi⟩
  · cases hb
  · cases hi

end FeltRelay.Codec
