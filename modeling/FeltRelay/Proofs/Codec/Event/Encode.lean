import FeltRelay.Codec.Event.Encode
import FeltRelay.Proofs.Codec.Flat.Encode

/-!
# Event encoding step by step

What the encoder writes for each form of a type, as equations of results.
-/

namespace FeltRelay.Codec.Event

open FeltRelay.Schema

variable {m : Model} {modulus : Int} {ofMessage : String → String → Json → Emission Event}

/-- A value that is there stands between the opening and the closing of its container. -/
theorem encodeTy_optional {v : Json} (hv : v ≠ .null) (t : Ty) (path : String) :
    encodeTy m modulus ofMessage (.optional t) path v =
      within .optional fun _ => encodeTy m modulus ofMessage t path v := by
  cases v with
  | null => exact absurd rfl hv
  | _ => rfl

/-- What is written around the contents of a container. -/
theorem result_within (c : Container) (body : Unit → Emission Event) :
    (within c body).result = (body ()).result.map fun es => push c :: es ++ [pop c] := by
  rw [within, Emission.result_followedBy, Emission.result_followedBy]
  cases (body ()).result with
  | error f => rfl
  | ok es => rfl

theorem of_result_within {c : Container} {body : Unit → Emission Event} {events : List Event}
    (h : (within c body).result = .ok events) :
    ∃ inner, (body ()).result = .ok inner ∧ events = push c :: inner ++ [pop c] := by
  rw [result_within] at h
  obtain ⟨inner, hinner, rfl⟩ := map_eq_ok_iff.1 h
  exact ⟨inner, hinner, rfl⟩

theorem encodeTy_scalar {s : Scalar} (hs : s.isByteString = false) (path : String) (v : Json) :
    (encodeTy m modulus ofMessage (.scalar s) path v).result =
      (toElement modulus s path v).map fun e => [value e] := by
  rw [encodeTy, hs]
  exact Emission.result_ofExcept _

theorem encodeTy_byteString {s : Scalar} (hs : s.isByteString = true) (path : String) (v : Json) :
    (encodeTy m modulus ofMessage (.scalar s) path v).result =
      (bytesOfJson s path v).map fun bytes => (packBytes bytes).map fun (n : Nat) => value n := by
  rw [encodeTy, hs]
  exact Emission.result_ofExcept _

/-- Only a variant is accepted under an enumeration. -/
theorem of_encodeTy_enum {name path : String} {v : Json} {events : List Event}
    (h : (encodeTy m modulus ofMessage (.enum name) path v).result = .ok events) :
    ∃ spec variant i, m.enum? name = some spec ∧ v = .str variant ∧
      spec.indexOf? variant = some i ∧ events = [push .enum, value (i : Nat), pop .enum] := by
  cases hm : m.enum name with
  | error f =>
    simp only [encodeTy, hm] at h
    cases h
  | ok spec =>
    cases v with
    | str variant =>
      simp only [encodeTy, hm] at h
      cases hi : spec.indexOf? variant with
      | none =>
        rw [hi] at h
        cases h
      | some i =>
        rw [hi] at h
        cases h
        exact ⟨spec, variant, i, Model.enum_eq_ok hm, rfl, hi, rfl⟩
    | _ =>
      simp only [encodeTy, hm] at h
      cases h

/-- Items are written one after the other. -/
theorem result_encodeItems {encode : String → Json → Emission Event} {vs : List Json}
    {parts : List (List Event)}
    (h : List.Forall₂ (fun v es => ∀ path, (encode path v).result = .ok es) vs parts)
    (path : String) (i : Nat) :
    (encodeItems encode path i vs).result = .ok parts.flatten := by
  induction h generalizing i with
  | nil => rfl
  | cons hv _ ih =>
    rw [encodeItems, List.flatten_cons]
    exact Emission.result_followedBy_of_ok (hv _) (ih _)

/-- What was written for items is what was written for each of them. -/
theorem of_result_encodeItems {encode : String → Json → Emission Event} {path : String} {i : Nat}
    {vs : List Json} {events : List Event}
    (h : (encodeItems encode path i vs).result = .ok events) :
    ∃ parts : List (List Event),
      List.Forall₂ (fun v part => ∃ path, (encode path v).result = .ok part) vs parts ∧
        events = parts.flatten := by
  induction vs generalizing i events with
  | nil =>
    cases h
    exact ⟨[], .nil, rfl⟩
  | cons v vs ih =>
    rw [encodeItems] at h
    obtain ⟨ys, zs, hv, hvs, rfl⟩ := Emission.result_followedBy_eq_ok_iff.1 h
    obtain ⟨parts, hparts, rfl⟩ := ih hvs
    exact ⟨ys :: parts, .cons ⟨_, hv⟩ hparts, rfl⟩

theorem encodeMessage_obj {name : String} {spec : Message} {ms : List (String × Json)}
    (hm : m.message? name = some spec) (hu : unknownNames spec ms = []) (depth : Nat)
    (path : String) :
    encodeMessage m modulus (depth + 1) name path (.obj ms) =
      within .struct fun _ =>
        encodeFields (encodeTy m modulus (encodeMessage m modulus depth)) name path ms
          spec.fields := by
  simp only [encodeMessage, Model.message_of_message? hm, hu]

/-- Only an object is accepted under a message. -/
theorem of_encodeMessage {depth : Nat} {name path : String} {v : Json} {events : List Event}
    (h : (encodeMessage m modulus depth name path v).result = .ok events) :
    ∃ depth' spec ms inner, depth = depth' + 1 ∧ m.message? name = some spec ∧ v = .obj ms ∧
      (encodeFields (encodeTy m modulus (encodeMessage m modulus depth')) name path ms
        spec.fields).result = .ok inner ∧ events = push .struct :: inner ++ [pop .struct] := by
  cases depth with
  | zero => cases h
  | succ depth =>
    cases hm : m.message name with
    | error f =>
      simp only [encodeMessage, hm] at h
      cases h
    | ok spec =>
      cases v with
      | obj ms =>
        simp only [encodeMessage, hm] at h
        split at h
        · obtain ⟨inner, hinner, rfl⟩ := of_result_within h
          exact ⟨depth, spec, ms, inner, rfl, Model.message_eq_ok hm, rfl, hinner, rfl⟩
        · cases h
      | _ =>
        simp only [encodeMessage, hm] at h
        cases h

/-- What was written for the first field of a message, and what for the others. A field that is not
there counts as null. -/
theorem of_encodeFields_cons {encode : Ty → String → Json → Emission Event} {name path : String}
    {ms : List (String × Json)} {f : Field} {fields : List Field} {events : List Event}
    (h : (encodeFields encode name path ms (f :: fields)).result = .ok events) :
    ∃ es fs path', events = key f.name :: es ++ fs ∧
      (encodeFields encode name path ms fields).result = .ok fs ∧
      (encode f.type path' ((ms.lookup f.name).getD .null)).result = .ok es ∧
      (ms.lookup f.name = none → f.type.isOptional = true) := by
  rw [encodeFields] at h
  obtain ⟨es, fs, hhere, hrest, rfl⟩ := Emission.result_followedBy_eq_ok_iff.1 h
  cases hl : ms.lookup f.name with
  | some v =>
    simp only [hl, Emission.result_write_followedBy] at hhere
    obtain ⟨es', hes, rfl⟩ := map_eq_ok_iff.1 hhere
    exact ⟨es', fs, _, rfl, hrest, hes, fun hnone => by cases hnone⟩
  | none =>
    simp only [hl] at hhere
    split at hhere
    · rename_i hopt
      rw [Emission.result_write_followedBy] at hhere
      obtain ⟨es', hes, rfl⟩ := map_eq_ok_iff.1 hhere
      exact ⟨es', fs, _, rfl, hrest, hes, fun _ => hopt⟩
    · cases hhere

/-! ### The first event -/

/-- Events begin with one that closes nothing. -/
def Opens (events : List Event) : Prop := ∃ e rest, events = e :: rest ∧ ∀ c, e ≠ pop c

theorem opens_within {c : Container} {body : Unit → Emission Event} {events : List Event}
    (h : (within c body).result = .ok events) : Opens events := by
  obtain ⟨inner, -, rfl⟩ := of_result_within h
  exact ⟨push c, inner ++ [pop c], rfl, fun _ => Event.noConfusion⟩

/-- What is written for a value begins with an event that closes nothing. -/
theorem opens_encodeTy {depth : Nat} {t : Ty} {path : String} {v : Json} {events : List Event}
    (h : (encodeTy m modulus (encodeMessage m modulus depth) t path v).result = .ok events) :
    Opens events := by
  cases t with
  | scalar s =>
    by_cases hs : s.isByteString = true
    · rw [encodeTy_byteString hs] at h
      obtain ⟨bytes, -, rfl⟩ := map_eq_ok_iff.1 h
      exact ⟨_, _, rfl, fun _ => Event.noConfusion⟩
    · rw [encodeTy_scalar (Bool.eq_false_of_not_eq_true hs)] at h
      obtain ⟨e, -, rfl⟩ := map_eq_ok_iff.1 h
      exact ⟨_, _, rfl, fun _ => Event.noConfusion⟩
  | message name =>
    obtain ⟨_, _, _, inner, -, -, -, -, rfl⟩ := of_encodeMessage h
    exact ⟨push .struct, inner ++ [pop .struct], rfl, fun _ => Event.noConfusion⟩
  | enum name =>
    obtain ⟨_, _, _, -, -, -, rfl⟩ := of_encodeTy_enum h
    exact ⟨_, _, rfl, fun _ => Event.noConfusion⟩
  | optional t =>
    by_cases hv : v = .null
    · subst hv
      exact opens_within h
    · rw [encodeTy_optional hv] at h
      exact opens_within h
  | array t =>
    cases v with
    | arr vs => exact opens_within h
    | _ => cases h

end FeltRelay.Codec.Event
