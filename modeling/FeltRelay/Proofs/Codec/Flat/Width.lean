import FeltRelay.Proofs.Codec.ByteArray
import FeltRelay.Proofs.Codec.Flat.Encode
import FeltRelay.Schema.Layout

/-!
# The width of an encoding

The width of a declared type is known in a closed model (`exists_minWidth`), and no value is encoded
in fewer elements (`minWidth_le`). So the length that an array states never exceeds what follows it.
-/

namespace FeltRelay.Codec.Flat

open FeltRelay.Schema FeltRelay.Schema.Model

variable {m : Model} {modulus : Int}

/-! ### Declared types -/

theorem exists_widthTy {ofMessage : String → Except Failure Nat}
    (hmsg : ∀ name, (m.message? name).isSome → ∃ w, ofMessage name = .ok w) {t : Ty}
    (ht : t.Declared m) : ∃ w, widthTy ofMessage t = .ok w := by
  cases t with
  | message name => exact hmsg name ht
  | _ => exact ⟨_, rfl⟩

/-- A declared message is as wide as its fields together. -/
theorem widthMessage_of_message? (budget : Nat) {name : String} {spec : Message}
    (h : m.message? name = some spec) : m.widthMessage (budget + 1) name =
      (spec.fields.mapM fun f => widthTy (m.widthMessage budget) f.type).map List.sum := by
  have hstep : m.widthMessage (budget + 1) name = m.message name >>= fun spec =>
      (spec.fields.mapM fun f => widthTy (m.widthMessage budget) f.type) >>= fun widths =>
        pure widths.sum := rfl
  rw [hstep, message_of_message? h, ok_bind]
  rfl

theorem exists_widthMessage (hm : m.Closed) (budget : Nat) {name : String}
    (h : (m.message? name).isSome) : ∃ w, m.widthMessage budget name = .ok w := by
  induction budget generalizing name with
  | zero => exact ⟨0, rfl⟩
  | succ budget ih =>
    obtain ⟨spec, hspec⟩ := Option.isSome_iff_exists.1 h
    have hfields : ∀ f ∈ spec.fields, ∃ w, widthTy (m.widthMessage budget) f.type = .ok w :=
      fun f hf => exists_widthTy (fun _ h => ih h) (hm spec (mem_of_message? hspec) f hf)
    obtain ⟨widths, hwidths⟩ := exists_mapM hfields
    refine ⟨widths.sum, ?_⟩
    rw [widthMessage_of_message? budget hspec, hwidths, map_ok]

theorem exists_minWidth (hm : m.Closed) {t : Ty} (ht : t.Declared m) :
    ∃ w, m.minWidth t = .ok w :=
  exists_widthTy (fun _ h => exists_widthMessage hm _ h) ht

/-! ### Encodings -/

/-- A width that no encoding of a message falls below. -/
def LowerBound (m : Model) (modulus : Int) (ofMessage : String → Except Failure Nat) : Prop :=
  ∀ {name w}, ofMessage name = .ok w → ∀ {depth path v xs},
    (encodeMessage m modulus depth name path v).result = .ok xs → w ≤ xs.length

theorem widthTy_le {ofMessage : String → Except Failure Nat}
    (hmsg : LowerBound m modulus ofMessage) {t : Ty} {w : Nat} (hw : widthTy ofMessage t = .ok w)
    {depth : Nat} {path : String} {v : Json} {xs : List Int}
    (h : (encodeTy m modulus (encodeMessage m modulus depth) t path v).result = .ok xs) :
    w ≤ xs.length := by
  cases t with
  | scalar s =>
    cases hw
    by_cases hs : s.isByteString = true
    · rw [encodeTy_byteString hs] at h
      obtain ⟨bytes, -, rfl⟩ := map_eq_ok_iff.1 h
      rw [if_pos hs, List.length_map, length_packBytes]
      exact Nat.le_add_left ..
    · rw [encodeTy_scalar (Bool.eq_false_of_not_eq_true hs)] at h
      obtain ⟨e, -, rfl⟩ := map_eq_ok_iff.1 h
      rw [if_neg hs, List.length_singleton]
  | message name => exact hmsg hw h
  | enum name =>
    cases hw
    obtain ⟨_, _, _, -, -, -, rfl⟩ := of_encodeTy_enum h
    exact Nat.le_refl 1
  | optional t =>
    cases hw
    by_cases hv : v = .null
    · subst hv
      cases h
      exact Nat.le_refl 1
    · rw [encodeTy_optional hv] at h
      obtain ⟨ys, zs, hys, -, rfl⟩ := Emission.result_followedBy_eq_ok_iff.1 h
      rw [Emission.eq_of_result_write hys]
      exact Nat.le_add_left ..
  | array t =>
    cases hw
    cases v with
    | arr vs =>
      obtain ⟨ys, zs, hys, -, rfl⟩ := Emission.result_followedBy_eq_ok_iff.1 h
      rw [Emission.eq_of_result_write hys]
      exact Nat.le_add_left ..
    | _ => cases h

theorem sum_le_of_encodeFields {ofMessage : String → Except Failure Nat}
    (hmsg : LowerBound m modulus ofMessage) {fields : List Field} {widths : List Nat}
    (hw : fields.mapM (fun f => widthTy ofMessage f.type) = .ok widths) {depth : Nat}
    {name path : String} {ms : List (String × Json)} {xs : List Int}
    (h : (encodeFields (encodeTy m modulus (encodeMessage m modulus depth)) name path ms
      fields).result = .ok xs) :
    widths.sum ≤ xs.length := by
  induction forall₂_of_mapM hw generalizing xs with
  | nil => exact Nat.zero_le _
  | cons hhead htail ih =>
    rename_i f w fields widths
    obtain ⟨ys, zs, rfl, hrest, hhere⟩ := of_encodeFields_cons h
    have hys : w ≤ ys.length := by
      rcases hhere with ⟨v, path', -, hv⟩ | ⟨-, hopt, rfl⟩
      · exact widthTy_le hmsg hhead hv
      · cases hf : f.type with
        | optional t =>
          rw [hf] at hhead
          cases hhead
          exact Nat.le_refl 1
        | _ =>
          rw [hf] at hopt
          cases hopt
    have hzs := ih (mapM_of_forall₂ htail) hrest
    rw [List.sum_cons, List.length_append]
    omega

theorem widthMessage_le (budget : Nat) : LowerBound m modulus (m.widthMessage budget) := by
  induction budget with
  | zero =>
    intro name w hw depth path v xs h
    cases hw
    exact Nat.zero_le _
  | succ budget ih =>
    intro name w hw depth path v xs h
    obtain ⟨depth', spec, ms, rfl, hspec, rfl, hfields⟩ := of_encodeMessage h
    rw [widthMessage_of_message? budget hspec] at hw
    obtain ⟨widths, hwidths, rfl⟩ := map_eq_ok_iff.1 hw
    exact sum_le_of_encodeFields ih hwidths hfields

/-- No value is encoded in fewer elements than the width of its type. -/
theorem minWidth_le {t : Ty} {w : Nat} (hw : m.minWidth t = .ok w) {depth : Nat} {path : String}
    {v : Json} {xs : List Int}
    (h : (encodeTy m modulus (encodeMessage m modulus depth) t path v).result = .ok xs) :
    w ≤ xs.length :=
  widthTy_le (widthMessage_le _) hw h

/-- Items take at least their number times the width of their type. -/
theorem length_mul_minWidth_le {t : Ty} {w : Nat} (hw : m.minWidth t = .ok w) {depth : Nat}
    {vs : List Json} {parts : List (List Int)}
    (h : List.Forall₂ (fun v part => ∃ path,
      (encodeTy m modulus (encodeMessage m modulus depth) t path v).result = .ok part) vs parts) :
    vs.length * w ≤ parts.flatten.length := by
  induction h with
  | nil => simp
  | cons hhead _ ih =>
    obtain ⟨path, hhead⟩ := hhead
    have hle := minWidth_le hw hhead
    rw [List.length_cons, Nat.succ_mul, List.flatten_cons, List.length_append]
    omega

end FeltRelay.Codec.Flat
