import FeltRelay.Proofs.Codec.Flat.RoundTrip
import FeltRelay.Proofs.Result

/-!
# Which fields hold the flat encoding

Settings take any modulus above `2^129`, where every integer of fixed width has an element of its
own. A byte string needs more: its words go up to `2^248`, and a smaller field is too small for some
value that the encoder accepts.
-/

namespace FeltRelay.Codec.Flat

open FeltRelay.Schema FeltRelay.Text

variable {m : Model} {modulus : Int}

/-- Whatever the encoder accepts is written in elements of the field, and so reads back. -/
def HoldsEncodings (m : Model) (modulus : Int) : Prop :=
  ∀ t v xs, t.Declared m → Fits m t v → encode m modulus t v = .ok xs →
    Within modulus xs ∧ decodeExact m modulus t (xs.map .int) = .ok (normalised m t v)

/-- Raw bytes that fill a word with the largest number it holds. -/
def fullWord : Json := .str "0xffffffffffffffffffffffffffffffffffffffffffffffffffffffffffffff"

theorem bytesOfJson_fullWord (path : String) :
    bytesOfJson .bytes path fullWord = .ok (List.replicate wordBytes 255) := by
  have hread : bytesOfJson .bytes "$" fullWord = .ok (List.replicate wordBytes 255) :=
    eq_ok_of_toOption (by decide +kernel)
  exact bytesOfJson_path hread path

theorem encode_fullWord :
    encode m modulus (.scalar .bytes) fullWord = .ok [1, 2 ^ 248 - 1, 0, 0] := by
  have hwords : packBytes (List.replicate wordBytes 255) = [1, 2 ^ 248 - 1, 0, 0] := by
    decide +kernel
  unfold encode emit
  rw [encodeTy_byteString rfl, bytesOfJson_fullWord, map_ok, hwords]
  rfl

theorem fits_fullWord : Fits m (.scalar .bytes) fullWord := by
  refine .scalar fun bytes _ h => ?_
  rw [bytesOfJson_fullWord] at h
  cases h
  decide

theorem le_of_holdsEncodings (h : HoldsEncodings m modulus) : 2 ^ 248 ≤ modulus := by
  have hdecl : (Ty.scalar .bytes).Declared m := trivial
  have hwords := (h _ _ _ hdecl fits_fullWord encode_fullWord).1
  have hword := (hwords (2 ^ 248 - 1) (by simp)).2
  omega

/-- In the smallest field that settings allow, the full word is written and not read back. -/
theorem fullWord_unreadable :
    encode Model.canvas (2 ^ 129 + 1) (.scalar .bytes) fullWord = .ok [1, 2 ^ 248 - 1, 0, 0] ∧
      decodeExact Model.canvas (2 ^ 129 + 1) (.scalar .bytes)
          [.int 1, .int (2 ^ 248 - 1), .int 0, .int 0] =
        .error (.elementOutOfRange 1 "element outside the field" [("element", .int (2 ^ 248 - 1))]) ∧
      ¬HoldsEncodings Model.canvas (2 ^ 129 + 1) := by
  refine ⟨encode_fullWord, rfl, fun h => ?_⟩
  have hword := le_of_holdsEncodings h
  revert hword
  decide

/-- A field holds every encoding exactly if it holds every word of a byte string. -/
theorem holdsEncodings_iff {text : String} (hm : m.ReadFrom text) (hsize : text.length < 2 ^ 248)
    (hp : 2 ^ 129 < modulus) : HoldsEncodings m modulus ↔ 2 ^ 248 ≤ modulus := by
  constructor
  · exact le_of_holdsEncodings
  · intro hword t v xs ht hfits h
    obtain ⟨height, hbounded⟩ := exists_bounded hm hsize
    have hin := within_encode hp hbounded.variants hfits h
    rw [ceiling_eq hword] at hin
    exact ⟨hin, decodeExact_of_reads (reads_of_within hp hbounded ht hfits h hin)⟩

theorem holdsEncodings_canvas : HoldsEncodings Model.canvas starkPrime := by
  have hiff := holdsEncodings_iff (.definitions Model.ofText_canvasText)
    Model.length_canvasText_lt (by decide : 2 ^ 129 < (starkPrime : Int))
  exact hiff.2 (by decide)

end FeltRelay.Codec.Flat
