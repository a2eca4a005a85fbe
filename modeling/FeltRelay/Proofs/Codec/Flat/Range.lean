import FeltRelay.Proofs.Codec.ByteString
import FeltRelay.Proofs.Codec.Element
import FeltRelay.Proofs.Codec.Flat.Encode

/-!
# The range of what the flat encoder writes

Every element is below the modulus, or below `2^248`, which a full word of a byte string may come
up to: the encoder takes integers modulo the field, but writes words as they are.
-/

namespace FeltRelay.Codec.Flat

open FeltRelay.Schema FeltRelay.Text

/-- Integers from zero up to a bound. -/
def Within (bound : Int) (xs : List Int) : Prop := ∀ x ∈ xs, 0 ≤ x ∧ x < bound

variable {m : Model} {modulus bound : Int}

theorem within_singleton {x : Int} : Within bound [x] ↔ 0 ≤ x ∧ x < bound := by
  unfold Within
  simp only [List.mem_singleton, forall_eq]

theorem within_append {xs ys : List Int} :
    Within bound (xs ++ ys) ↔ Within bound xs ∧ Within bound ys :=
  List.forall_mem_append

theorem within_flatten {parts : List (List Int)} :
    Within bound parts.flatten ↔ ∀ part ∈ parts, Within bound part := by
  induction parts with
  | nil => simp [Within]
  | cons part parts ih => rw [List.flatten_cons, within_append, ih, List.forall_mem_cons]

theorem Within.mono {b : Int} {xs : List Int} (h : Within bound xs) (hb : bound ≤ b) :
    Within b xs := by
  intro x hx
  have := h x hx
  omega

/-- No element that the encoder writes reaches this bound. -/
def ceiling (modulus : Int) : Int := max modulus (2 ^ 248)

theorem le_ceiling (modulus : Int) : modulus ≤ ceiling modulus := le_max_left ..

theorem word_le_ceiling (modulus : Int) : 2 ^ 248 ≤ ceiling modulus := le_max_right ..

theorem ceiling_eq (h : 2 ^ 248 ≤ modulus) : ceiling modulus = modulus := max_eq_left h

/-- The elements of a value of a type stay below a bound. -/
def WritesBelow (m : Model) (bound : Int) (t : Ty) (write : String → Json → Emission Int) : Prop :=
  ∀ path v xs, Fits m t v → (write path v).result = .ok xs → Within bound xs

theorem within_packBytes {bytes : List UInt8} (hlen : bytes.length < 2 ^ 64) :
    Within (2 ^ 248) ((packBytes bytes).map Int.ofNat) := by
  intro x hx
  obtain ⟨n, hn, rfl⟩ := List.mem_map.1 hx
  have hwords : bytes.length < 256 ^ wordBytes := Nat.lt_trans hlen (by decide)
  have hlt : n < 256 ^ wordBytes := packBytes_lt hwords hn
  have hpow : (256 : Nat) ^ wordBytes = 2 ^ 248 := by decide
  rw [hpow] at hlt
  have hn0 : Int.ofNat n = (n : Int) := rfl
  rw [hn0]
  omega

variable {ofMessage : String → String → Json → Emission Int}

theorem writesBelow_scalar (hp : 2 ^ 129 < modulus) (s : Scalar) :
    WritesBelow m (ceiling modulus) (.scalar s) (encodeTy m modulus ofMessage (.scalar s)) := by
  intro path v xs hfits h
  by_cases hs : s.isByteString = true
  · rw [encodeTy_byteString hs] at h
    obtain ⟨bytes, hbytes, rfl⟩ := map_eq_ok_iff.1 h
    cases hfits with
    | scalar hlen =>
      have hshort := hlen bytes hs (bytesOfJson_path hbytes "$")
      exact (within_packBytes hshort).mono (word_le_ceiling modulus)
  · have hs' := Bool.eq_false_of_not_eq_true hs
    rw [encodeTy_scalar hs'] at h
    obtain ⟨e, he, rfl⟩ := map_eq_ok_iff.1 h
    obtain ⟨h0, hlt, -⟩ := ofElement_toElement hp hs' he 0
    have hceiling := le_ceiling modulus
    rw [within_singleton]
    omega

theorem writesBelow_enum (hm : ∀ spec ∈ m.enums, spec.variants.length ≤ 2 ^ 248) (name : String) :
    WritesBelow m (ceiling modulus) (.enum name) (encodeTy m modulus ofMessage (.enum name)) := by
  intro path v xs _ h
  obtain ⟨spec, variant, i, hspec, rfl, hi, rfl⟩ := of_encodeTy_enum h
  have hlt := (List.getElem?_eq_some_iff.1 (Enumeration.getElem?_of_indexOf? hi)).1
  have hcount := hm spec (Model.mem_of_enum? hspec)
  have hceiling := word_le_ceiling modulus
  rw [within_singleton]
  omega

theorem writesBelow_optional {t : Ty}
    (ht : WritesBelow m (ceiling modulus) t (encodeTy m modulus ofMessage t)) :
    WritesBelow m (ceiling modulus) (.optional t)
      (encodeTy m modulus ofMessage (.optional t)) := by
  intro path v xs hfits h
  have hceiling := word_le_ceiling modulus
  by_cases hv : v = .null
  · subst hv
    cases h
    exact within_singleton.2 (by omega)
  · rw [encodeTy_optional hv] at h
    obtain ⟨ys, zs, hys, hzs, rfl⟩ := Emission.result_followedBy_eq_ok_iff.1 h
    cases Emission.eq_of_result_write hys
    have hinner : Fits m t v := by
      cases hfits with
      | absent => exact absurd rfl hv
      | optional h => exact h
    rw [within_append, within_singleton]
    exact ⟨by omega, ht _ _ _ hinner hzs⟩

theorem writesBelow_array {t : Ty}
    (ht : WritesBelow m (ceiling modulus) t (encodeTy m modulus ofMessage t)) :
    WritesBelow m (ceiling modulus) (.array t) (encodeTy m modulus ofMessage (.array t)) := by
  intro path v xs hfits h
  cases hfits with
  | @array _ vs _ hitems =>
    obtain ⟨ys, zs, hys, hzs, rfl⟩ := Emission.result_followedBy_eq_ok_iff.1 h
    cases Emission.eq_of_result_write hys
    obtain ⟨parts, hparts, rfl⟩ := of_result_encodeItems hzs
    have hceiling := word_le_ceiling modulus
    rw [within_append, within_singleton, within_flatten]
    refine ⟨by omega, fun part hpart => ?_⟩
    obtain ⟨i, hi, rfl⟩ := List.getElem_of_mem hpart
    have hi' : i < vs.length := by
      rw [hparts.length_eq]
      exact hi
    obtain ⟨path', hpath⟩ := hparts.get hi' hi
    exact ht _ _ _ (hitems _ (List.getElem_mem hi')) hpath

theorem writesBelow_ty (hp : 2 ^ 129 < modulus)
    (hm : ∀ spec ∈ m.enums, spec.variants.length ≤ 2 ^ 248)
    (hmsg : ∀ name, WritesBelow m (ceiling modulus) (.message name) (ofMessage name)) (t : Ty) :
    WritesBelow m (ceiling modulus) t (encodeTy m modulus ofMessage t) := by
  induction t with
  | scalar s => exact writesBelow_scalar hp s
  | message name => exact hmsg name
  | enum name => exact writesBelow_enum hm name
  | optional t ih => exact writesBelow_optional ih
  | array t ih => exact writesBelow_array ih

/-! ### Messages -/

theorem within_encodeFields {encode : Ty → String → Json → Emission Int} {name path : String}
    {ms : List (String × Json)} {fields : List Field} (h0 : 0 < bound)
    (ht : ∀ f ∈ fields, WritesBelow m bound f.type (encode f.type))
    (hfits : ∀ f ∈ fields, ∀ v, ms.lookup f.name = some v → Fits m f.type v) {xs : List Int}
    (h : (encodeFields encode name path ms fields).result = .ok xs) : Within bound xs := by
  induction fields generalizing xs with
  | nil =>
    cases h
    exact fun x hx => absurd hx List.not_mem_nil
  | cons f fields ih =>
    obtain ⟨ys, zs, rfl, hrest, hhere⟩ := of_encodeFields_cons h
    have hself := List.mem_cons_self (a := f) (l := fields)
    have htail := ih (fun g hg => ht g (List.mem_cons_of_mem _ hg))
      (fun g hg => hfits g (List.mem_cons_of_mem _ hg)) hrest
    rw [within_append]
    refine ⟨?_, htail⟩
    rcases hhere with ⟨v, path', hv, hys⟩ | ⟨-, -, rfl⟩
    · exact ht f hself _ _ _ (hfits f hself v hv) hys
    · rw [within_singleton]
      exact ⟨le_refl 0, h0⟩

theorem writesBelow_message (hp : 2 ^ 129 < modulus)
    (hm : ∀ spec ∈ m.enums, spec.variants.length ≤ 2 ^ 248) (depth : Nat) (name : String) :
    WritesBelow m (ceiling modulus) (.message name) (encodeMessage m modulus depth name) := by
  induction depth generalizing name with
  | zero =>
    intro path v xs _ h
    cases h
  | succ depth ih =>
    intro path v xs hfits h
    obtain ⟨_, spec, ms, hdepth, hspec, rfl, hfields⟩ := of_encodeMessage h
    cases hdepth
    cases hfits with
    | message hsub =>
      have hceiling := word_le_ceiling modulus
      have hty := fun f (_ : f ∈ spec.fields) => writesBelow_ty hp hm ih f.type
      exact within_encodeFields (by omega) hty (hsub spec hspec) hfields

/-- No element of an encoding is beyond both the field and a word of a byte string. -/
theorem within_encode (hp : 2 ^ 129 < modulus)
    (hm : ∀ spec ∈ m.enums, spec.variants.length ≤ 2 ^ 248) {t : Ty} {v : Json}
    (hfits : Fits m t v) {xs : List Int} (h : encode m modulus t v = .ok xs) :
    Within (ceiling modulus) xs :=
  writesBelow_ty hp hm (writesBelow_message hp hm _) t _ _ _ hfits h

end FeltRelay.Codec.Flat
