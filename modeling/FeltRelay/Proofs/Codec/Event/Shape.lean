import FeltRelay.Proofs.Codec.Event.Encode

/-!
# The shape of events

The events of a value have a grammar that its type gives (`Shaped`): what is opened is closed, and a
message announces its fields by their declared names in declared order. The encoder follows it
(`shaped_encodeTy`), and whatever follows it is balanced (`Shaped.follow_append`).
-/

namespace FeltRelay.Codec.Event

open FeltRelay.Schema

/-- The containers that are open after some events, the innermost first. Only the innermost one may
be closed. -/
def follow : List Container → List Event → Option (List Container)
  | outer, [] => some outer
  | outer, push c :: rest => follow (c :: outer) rest
  | c :: outer, pop d :: rest => if d = c then follow outer rest else none
  | [], pop _ :: _ => none
  | outer, key _ :: rest => follow outer rest
  | outer, value _ :: rest => follow outer rest

/-- Every opening has its closing, of the same container. -/
def Balanced (events : List Event) : Prop := follow [] events = some []

/-- The events of fields: each after its name, in declared order. -/
def keyed (fields : List Field) (parts : List (List Event)) : List Event :=
  (List.zipWith (fun (f : Field) part => key f.name :: part) fields parts).flatten

/-- The events that a value of a type may have. -/
inductive Shaped (m : Model) : Ty → List Event → Prop
  | scalar {s : Scalar} {es : List Int} : Shaped m (.scalar s) (es.map value)
  | absent {t : Ty} : Shaped m (.optional t) [push .optional, pop .optional]
  | optional {t : Ty} {events : List Event} (h : Shaped m t events) :
    Shaped m (.optional t) (push .optional :: events ++ [pop .optional])
  | array {t : Ty} {parts : List (List Event)} (h : ∀ part ∈ parts, Shaped m t part) :
    Shaped m (.array t) (push .array :: parts.flatten ++ [pop .array])
  | enum {name : String} {i : Int} : Shaped m (.enum name) [push .enum, value i, pop .enum]
  | message {name : String} {spec : Message} {parts : List (List Event)}
    (hspec : m.message? name = some spec) (hlen : parts.length = spec.fields.length)
    (h : ∀ e ∈ spec.fields.zip parts, Shaped m e.1.type e.2) :
    Shaped m (.message name) (push .struct :: keyed spec.fields parts ++ [pop .struct])

variable {m : Model} {modulus : Int}

/-! ### Balance -/

theorem follow_nil (outer : List Container) (rest : List Event) :
    follow outer ([] ++ rest) = follow outer rest := rfl

theorem follow_values (outer : List Container) (es : List Int) (rest : List Event) :
    follow outer (es.map value ++ rest) = follow outer rest := by
  induction es with
  | nil => rfl
  | cons e es ih => exact ih

theorem follow_within (outer : List Container) (c : Container) {events : List Event}
    (h : ∀ outer rest, follow outer (events ++ rest) = follow outer rest) (rest : List Event) :
    follow outer (push c :: events ++ [pop c] ++ rest) = follow outer rest := by
  rw [List.append_assoc, List.cons_append, follow, h]
  exact if_pos rfl

theorem follow_flatten (outer : List Container) {parts : List (List Event)}
    (h : ∀ part ∈ parts, ∀ outer rest, follow outer (part ++ rest) = follow outer rest)
    (rest : List Event) : follow outer (parts.flatten ++ rest) = follow outer rest := by
  induction parts with
  | nil => rfl
  | cons part parts ih =>
    rw [List.flatten_cons, List.append_assoc, h part (List.mem_cons_self ..)]
    exact ih fun part hpart => h part (List.mem_cons_of_mem _ hpart)

theorem follow_keyed (outer : List Container) {fields : List Field} {parts : List (List Event)}
    (h : ∀ e ∈ fields.zip parts, ∀ outer rest, follow outer (e.2 ++ rest) = follow outer rest)
    (rest : List Event) : follow outer (keyed fields parts ++ rest) = follow outer rest := by
  induction fields generalizing parts with
  | nil => rfl
  | cons f fields ih =>
    cases parts with
    | nil => rfl
    | cons part parts =>
      have hhead := h (f, part) (List.mem_cons_self ..) outer (keyed fields parts ++ rest)
      have hkey : keyed (f :: fields) (part :: parts) ++ rest =
          key f.name :: (part ++ (keyed fields parts ++ rest)) := by
        rw [← List.append_assoc]
        rfl
      rw [hkey, follow, hhead]
      exact ih fun e he => h e (List.mem_cons_of_mem _ he)

/-- Events of a value leave the containers around them as they are. -/
theorem Shaped.follow_append {t : Ty} {events : List Event} (h : Shaped m t events)
    (outer : List Container) (rest : List Event) :
    follow outer (events ++ rest) = follow outer rest := by
  induction h generalizing outer rest with
  | scalar => exact follow_values outer _ rest
  | absent => exact follow_within outer .optional follow_nil rest
  | optional _ ih => exact follow_within outer .optional ih rest
  | array _ ih => exact follow_within outer .array (follow_flatten · ih ·) rest
  | @enum name i => exact follow_within outer .enum (follow_values · [i] ·) rest
  | message _ _ _ ih => exact follow_within outer .struct (follow_keyed · ih ·) rest

theorem Shaped.balanced {t : Ty} {events : List Event} (h : Shaped m t events) :
    Balanced events := by
  have hfollow := h.follow_append [] []
  rwa [List.append_nil] at hfollow

/-! ### The encoder -/

theorem parts_of_encodeFields {encode : Ty → String → Json → Emission Event} {name path : String}
    {ms : List (String × Json)} {fields : List Field} {events : List Event}
    (h : (encodeFields encode name path ms fields).result = .ok events) :
    ∃ parts : List (List Event), parts.length = fields.length ∧ events = keyed fields parts ∧
      ∀ e ∈ fields.zip parts, ∃ path v, (encode e.1.type path v).result = .ok e.2 := by
  induction fields generalizing events with
  | nil =>
    cases h
    exact ⟨[], rfl, rfl, fun e he => absurd he List.not_mem_nil⟩
  | cons f fields ih =>
    obtain ⟨es, fs, path', rfl, hrest, hes, -⟩ := of_encodeFields_cons h
    obtain ⟨parts, hlen, rfl, hparts⟩ := ih hrest
    refine ⟨es :: parts, congrArg (· + 1) hlen, rfl, fun e he => ?_⟩
    rcases List.mem_cons.1 he with rfl | he
    · exact ⟨path', _, hes⟩
    · exact hparts e he

theorem shaped_encodeTy {ofMessage : String → String → Json → Emission Event}
    (hmsg : ∀ {name path v events}, (ofMessage name path v).result = .ok events →
      Shaped m (.message name) events) {t : Ty} {path : String} {v : Json} {events : List Event}
    (h : (encodeTy m modulus ofMessage t path v).result = .ok events) : Shaped m t events := by
  induction t generalizing path v events with
  | scalar s =>
    by_cases hs : s.isByteString = true
    · rw [encodeTy_byteString hs] at h
      obtain ⟨bytes, -, rfl⟩ := map_eq_ok_iff.1 h
      have hvalues : (packBytes bytes).map (fun (n : Nat) => value n) =
          ((packBytes bytes).map Int.ofNat).map value := by
        rw [List.map_map]
        rfl
      rw [hvalues]
      exact .scalar
    · rw [encodeTy_scalar (Bool.eq_false_of_not_eq_true hs)] at h
      obtain ⟨e, -, rfl⟩ := map_eq_ok_iff.1 h
      rw [← List.map_singleton]
      exact .scalar
  | message name => exact hmsg h
  | enum name =>
    obtain ⟨_, _, i, -, -, -, rfl⟩ := of_encodeTy_enum h
    exact .enum
  | optional t ih =>
    by_cases hv : v = .null
    · subst hv
      cases h
      exact .absent
    · rw [encodeTy_optional hv] at h
      obtain ⟨inner, hinner, rfl⟩ := of_result_within h
      exact .optional (ih hinner)
  | array t ih =>
    cases v with
    | arr vs =>
      obtain ⟨inner, hinner, rfl⟩ := of_result_within h
      obtain ⟨parts, hparts, rfl⟩ := of_result_encodeItems hinner
      refine .array fun part hpart => ?_
      obtain ⟨w, -, path, hw⟩ := exists_of_forall₂ hparts hpart
      exact ih hw
    | _ => cases h

theorem shaped_encodeMessage {depth : Nat} {name path : String} {v : Json} {events : List Event}
    (h : (encodeMessage m modulus depth name path v).result = .ok events) :
    Shaped m (.message name) events := by
  induction depth generalizing name path v events with
  | zero => cases h
  | succ depth ih =>
    obtain ⟨_, spec, ms, inner, hdepth, hspec, rfl, hfields, rfl⟩ := of_encodeMessage h
    cases hdepth
    obtain ⟨parts, hlen, rfl, hparts⟩ := parts_of_encodeFields hfields
    refine .message hspec hlen fun e he => ?_
    obtain ⟨path, v, hv⟩ := hparts e he
    exact shaped_encodeTy ih hv

theorem shaped_encode {t : Ty} {v : Json} {events : List Event}
    (h : encode m modulus t v = .ok events) : Shaped m t events :=
  shaped_encodeTy shaped_encodeMessage h

end FeltRelay.Codec.Event
