import FeltRelay.Codec.Flat.Encode
import FeltRelay.Proofs.Codec.Emission
import FeltRelay.Proofs.Entries.Sorted
import FeltRelay.Proofs.Schema.WellFormed

/-!
# Flat encoding step by step

What the encoder writes for each form of a type, as equations of results.
-/

namespace FeltRelay.Codec.Flat

open FeltRelay.Schema FeltRelay.Text

variable {m : Model} {modulus : Int} {ofMessage : String → String → Json → Emission Int}

/-- A value that is there follows its presence element. -/
theorem encodeTy_optional {v : Json} (hv : v ≠ .null) (t : Ty) (path : String) :
    encodeTy m modulus ofMessage (.optional t) path v =
      (Emission.write [1]).followedBy fun _ => encodeTy m modulus ofMessage t path v := by
  cases v with
  | null => exact absurd rfl hv
  | _ => rfl

theorem encodeTy_scalar {s : Scalar} (hs : s.isByteString = false) (path : String) (v : Json) :
    (encodeTy m modulus ofMessage (.scalar s) path v).result =
      (toElement modulus s path v).map ([·]) := by
  rw [encodeTy, hs]
  exact Emission.result_ofExcept _

theorem encodeTy_byteString {s : Scalar} (hs : s.isByteString = true) (path : String) (v : Json) :
    (encodeTy m modulus ofMessage (.scalar s) path v).result =
      (bytesOfJson s path v).map fun bytes => (packBytes bytes).map Int.ofNat := by
  rw [encodeTy, hs]
  exact Emission.result_ofExcept _

theorem encodeTy_enum {name : String} {spec : Enumeration} {variant : String} {i : Nat}
    (hm : m.enum? name = some spec) (hi : spec.indexOf? variant = some i) (path : String) :
    (encodeTy m modulus ofMessage (.enum name) path (.str variant)).result = .ok [(i : Int)] := by
  simp only [encodeTy, Model.enum_of_enum? hm, hi]
  rfl

/-- Only a variant is accepted under an enumeration. -/
theorem of_encodeTy_enum {name path : String} {v : Json} {xs : List Int}
    (h : (encodeTy m modulus ofMessage (.enum name) path v).result = .ok xs) :
    ∃ spec variant i, m.enum? name = some spec ∧ v = .str variant ∧
      spec.indexOf? variant = some i ∧ xs = [(i : Int)] := by
  cases hm : m.enum name with
  | error f =>
    simp only [encodeTy, hm] at h
    cases h
  | ok spec =>
    cases v with
    | str variant =>
      simp only [encodeTy, hm] at h
      cases hi : spec.indexOf? variant with
      | none =>
        rw [hi] at h
        cases h
      | some i =>
        rw [hi] at h
        exact ⟨spec, variant, i, Model.enum_eq_ok hm, rfl, hi, Emission.eq_of_result_write h⟩
    | _ =>
      simp only [encodeTy, hm] at h
      cases h

/-- Items are encoded one after the other. -/
theorem result_encodeItems {encode : String → Json → Emission Int} {vs : List Json}
    {parts : List (List Int)}
    (h : List.Forall₂ (fun v xs => ∀ path, (encode path v).result = .ok xs) vs parts)
    (path : String) (i : Nat) :
    (encodeItems encode path i vs).result = .ok parts.flatten := by
  induction h generalizing i with
  | nil => rfl
  | cons hv _ ih =>
    rw [encodeItems, List.flatten_cons]
    exact Emission.result_followedBy_of_ok (hv _) (ih _)

/-- What was written for items is what was written for each of them. -/
theorem of_result_encodeItems {encode : String → Json → Emission Int} {path : String} {i : Nat}
    {vs : List Json} {xs : List Int} (h : (encodeItems encode path i vs).result = .ok xs) :
    ∃ parts : List (List Int),
      List.Forall₂ (fun v part => ∃ path, (encode path v).result = .ok part) vs parts ∧
        xs = parts.flatten := by
  induction vs generalizing i xs with
  | nil =>
    cases h
    exact ⟨[], .nil, rfl⟩
  | cons v vs ih =>
    rw [encodeItems] at h
    obtain ⟨ys, zs, hv, hvs, rfl⟩ := Emission.result_followedBy_eq_ok_iff.1 h
    obtain ⟨parts, hparts, rfl⟩ := ih hvs
    exact ⟨ys :: parts, .cons ⟨_, hv⟩ hparts, rfl⟩

/-! ### Messages -/

theorem unknownNames_eq_nil {spec : Message} {ms : List (String × Json)}
    (h : ∀ k ∈ Entries.keys ms, k ∈ spec.fieldNames) : unknownNames spec ms = [] := by
  have hnone : ms.filter (fun e => !spec.fieldNames.contains e.1) = [] := by
    rw [List.filter_eq_nil_iff]
    intro e he
    have := h e.1 (List.mem_map_of_mem he)
    simpa using this
  rw [unknownNames, hnone]
  rfl

theorem unknownNames_eq_nil_iff {spec : Message} {ms : List (String × Json)} :
    unknownNames spec ms = [] ↔ ∀ e ∈ ms, e.1 ∈ spec.fieldNames := by
  constructor
  · intro h e he
    by_contra hunknown
    have hmem : e ∈ ms.filter fun e => !spec.fieldNames.contains e.1 :=
      List.mem_filter.2 ⟨he, by simpa using hunknown⟩
    have hkey := (Entries.perm_keys_sorted _).mem_iff.2 (List.mem_map_of_mem (f := (·.1)) hmem)
    rw [unknownNames] at h
    rw [h] at hkey
    cases hkey
  · intro h
    refine unknownNames_eq_nil fun k hk => ?_
    obtain ⟨e, he, rfl⟩ := List.mem_map.1 hk
    exact h e he

theorem encodeMessage_obj {name : String} {spec : Message} {ms : List (String × Json)}
    (hm : m.message? name = some spec) (hu : unknownNames spec ms = []) (depth : Nat)
    (path : String) :
    encodeMessage m modulus (depth + 1) name path (.obj ms) =
      encodeFields (encodeTy m modulus (encodeMessage m modulus depth)) name path ms
        spec.fields := by
  simp only [encodeMessage, Model.message_of_message? hm, hu]

/-- Only an object is accepted under a message. -/
theorem of_encodeMessage {depth : Nat} {name path : String} {v : Json} {xs : List Int}
    (h : (encodeMessage m modulus depth name path v).result = .ok xs) :
    ∃ depth' spec ms, depth = depth' + 1 ∧ m.message? name = some spec ∧ v = .obj ms ∧
      (encodeFields (encodeTy m modulus (encodeMessage m modulus depth')) name path ms
        spec.fields).result = .ok xs := by
  cases depth with
  | zero => cases h
  | succ depth =>
    cases hm : m.message name with
    | error f =>
      simp only [encodeMessage, hm] at h
      cases h
    | ok spec =>
      cases v with
      | obj ms =>
        simp only [encodeMessage, hm] at h
        split at h
        · exact ⟨depth, spec, ms, rfl, Model.message_eq_ok hm, rfl, h⟩
        · cases h
      | _ =>
        simp only [encodeMessage, hm] at h
        cases h

/-- What was written for the first field of a message, and what for the others. -/
theorem of_encodeFields_cons {encode : Ty → String → Json → Emission Int} {name path : String}
    {ms : List (String × Json)} {f : Field} {fields : List Field} {xs : List Int}
    (h : (encodeFields encode name path ms (f :: fields)).result = .ok xs) :
    ∃ ys zs, xs = ys ++ zs ∧ (encodeFields encode name path ms fields).result = .ok zs ∧
      ((∃ v path, ms.lookup f.name = some v ∧ (encode f.type path v).result = .ok ys) ∨
        ms.lookup f.name = none ∧ f.type.isOptional = true ∧ ys = [0]) := by
  rw [encodeFields] at h
  obtain ⟨ys, zs, hhere, hrest, rfl⟩ := Emission.result_followedBy_eq_ok_iff.1 h
  refine ⟨ys, zs, rfl, hrest, ?_⟩
  cases hl : ms.lookup f.name with
  | some v =>
    rw [hl] at hhere
    exact .inl ⟨v, _, rfl, hhere⟩
  | none =>
    rw [hl] at hhere
    dsimp only at hhere
    split at hhere
    · rename_i hopt
      exact .inr ⟨rfl, hopt, Emission.eq_of_result_write hhere⟩
    · cases hhere

end FeltRelay.Codec.Flat
