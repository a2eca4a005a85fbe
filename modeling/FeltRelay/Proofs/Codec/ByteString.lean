import FeltRelay.Proofs.Codec.ByteArray
import FeltRelay.Proofs.Codec.Normal

/-!
# Byte strings in JSON

The bytes of a JSON value read back as its normal form (`textOfBytes_of_bytesOfJson`), and the text
that stands for bytes has these bytes (`bytesOfJson_of_textOfBytes`).
-/

namespace FeltRelay.Codec

open FeltRelay.Schema FeltRelay.Text

theorem kind_of_isByteString {kind : Scalar} (hk : kind.isByteString = true) :
    kind = .text ∨ kind = .bytes := by
  cases kind with
  | text => exact .inl rfl
  | bytes => exact .inr rfl
  | _ => cases hk

/-- Raw bytes are digit pairs after `0x`. -/
theorem bytesOfJson_bytes {path : String} {v : Json} {bytes : List UInt8}
    (h : bytesOfJson .bytes path v = .ok bytes) :
    ∃ s digits, v = .str s ∧ s.toList = '0' :: 'x' :: digits ∧ Hex.decode? digits = some bytes := by
  cases v with
  | str s =>
    rw [bytesOfJson, if_neg (by decide)] at h
    split at h
    · rename_i digits hs
      split at h
      · cases h
      · split at h
        · rename_i bs hbs
          cases h
          exact ⟨s, digits, rfl, hs, hbs⟩
        · cases h
    · cases h
  | _ => cases h

/-- Where a byte string stands does not matter for its bytes. -/
theorem bytesOfJson_path {kind : Scalar} {path : String} {v : Json} {bytes : List UInt8}
    (h : bytesOfJson kind path v = .ok bytes) (path' : String) :
    bytesOfJson kind path' v = .ok bytes := by
  cases v with
  | str s =>
    by_cases hk : kind = .text
    · rw [bytesOfJson, if_pos hk] at h ⊢
      exact h
    · rw [bytesOfJson, if_neg hk] at h ⊢
      split at h
      · rename_i digits hs
        by_cases hodd : digits.length % 2 = 1
        · rw [if_pos hodd] at h
          cases h
        · rw [if_neg hodd] at h ⊢
          cases hd : Hex.decode? digits with
          | none =>
            rw [hd] at h
            cases h
          | some bs =>
            rw [hd] at h
            exact h
      · cases h
  | _ => cases h

/-- The bytes of a value read back as its normal form. -/
theorem textOfBytes_of_bytesOfJson {kind : Scalar} (hk : kind.isByteString = true) {path : String}
    {v : Json} {bytes : List UInt8} (h : bytesOfJson kind path v = .ok bytes) :
    ∃ s, (∀ offset, textOfBytes kind offset bytes = .ok s) ∧ normalScalar kind v = .str s := by
  rcases kind_of_isByteString hk with rfl | rfl
  · cases v with
    | str s =>
      cases h
      refine ⟨s, fun offset => ?_, rfl⟩
      rw [textOfBytes, if_pos rfl, Utf8.decode?_encode]
    | _ => cases h
  · obtain ⟨s, digits, rfl, hs, hd⟩ := bytesOfJson_bytes h
    refine ⟨"0x" ++ Hex.encode bytes, fun offset => ?_, ?_⟩
    · rw [textOfBytes, if_neg (by decide)]
    · rw [normalScalar, hs, Hex.encode, Hex.flatMap_digits_of_decode? hd]
      congr 1
      apply String.toList_injective
      simp

/-- The text that stands for bytes has these bytes. -/
theorem bytesOfJson_of_textOfBytes {kind : Scalar} (hk : kind.isByteString = true) {offset : Int}
    {s : String} {bytes : List UInt8} (h : textOfBytes kind offset bytes = .ok s) (path : String) :
    bytesOfJson kind path (.str s) = .ok bytes := by
  rcases kind_of_isByteString hk with rfl | rfl
  · rw [textOfBytes, if_pos rfl] at h
    split at h
    · rename_i s' hs
      cases h
      rw [bytesOfJson, if_pos rfl, Utf8.encode_of_decode? hs]
    · cases h
  · rw [textOfBytes, if_neg (by decide)] at h
    cases h
    have hs : ("0x" ++ Hex.encode bytes).toList = '0' :: 'x' :: bytes.flatMap Hex.digits := by
      simp [Hex.encode]
    have heven : ¬(bytes.flatMap Hex.digits).length % 2 = 1 := by
      rw [Hex.length_flatMap_digits]
      omega
    rw [bytesOfJson, if_neg (by decide), hs]
    simp only [if_neg heven, Hex.decode?_flatMap_digits]

end FeltRelay.Codec
