import FeltRelay.Schema.Containment
import Mathlib.Data.List.Nodup

/-!
# Well-formed models

What the codec needs of a model beyond its containment: fields refer to declarations, names within
a declaration are distinct, and an absent value is absent at one place only.
-/

namespace FeltRelay.Schema

/-- Every name in a type is declared. -/
def Ty.Declared (m : Model) : Ty → Prop
  | .scalar _ => True
  | .message name => (m.message? name).isSome
  | .enum name => (m.enum? name).isSome
  | .optional t => t.Declared m
  | .array t => t.Declared m

/-- No optional stands directly inside another one. -/
def Ty.SinglyOptional : Ty → Prop
  | .optional t => t.isOptional = false ∧ t.SinglyOptional
  | .array t => t.SinglyOptional
  | _ => True

instance Ty.decidableDeclared (m : Model) : (t : Ty) → Decidable (t.Declared m)
  | .scalar _ => .isTrue trivial
  | .message name => inferInstanceAs (Decidable ((m.message? name).isSome = true))
  | .enum name => inferInstanceAs (Decidable ((m.enum? name).isSome = true))
  | .optional t => Ty.decidableDeclared m t
  | .array t => Ty.decidableDeclared m t

instance Ty.decidableSinglyOptional : (t : Ty) → Decidable t.SinglyOptional
  | .optional t =>
    have := Ty.decidableSinglyOptional t
    inferInstanceAs (Decidable (t.isOptional = false ∧ t.SinglyOptional))
  | .array t => Ty.decidableSinglyOptional t
  | .scalar _ | .message _ | .enum _ => .isTrue trivial

namespace Model

variable {m : Model} {name : String}

/-- The fields of every message refer to declarations. -/
def Closed (m : Model) : Prop := ∀ spec ∈ m.messages, ∀ f ∈ spec.fields, f.type.Declared m

/-- Names within a declaration are distinct. -/
structure Distinct (m : Model) : Prop where
  fields : ∀ spec ∈ m.messages, spec.fieldNames.Nodup
  variants : ∀ spec ∈ m.enums, spec.variants.Nodup

/-- No field's type has an optional directly inside another one. -/
def SinglyOptional (m : Model) : Prop :=
  ∀ spec ∈ m.messages, ∀ f ∈ spec.fields, f.type.SinglyOptional

/-- What every reader of models establishes. -/
structure Sound (m : Model) : Prop where
  messages : (m.messages.map (·.name)).Nodup
  enums : (m.enums.map (·.name)).Nodup
  services : (m.services.map (·.name)).Nodup
  methods : ∀ s ∈ m.services, (s.methods.map (·.name)).Nodup
  closed : m.Closed
  requests : ∀ s ∈ m.services, ∀ x ∈ s.methods,
    (m.message? x.request).isSome ∧ (m.message? x.response).isSome
  contained : m.checkContainment = .ok ()

/-! ### Declarations by name -/

theorem isSome_message?_iff : (m.message? name).isSome ↔ name ∈ m.messages.map (·.name) := by
  simp [message?, List.find?_isSome]

theorem isSome_enum?_iff : (m.enum? name).isSome ↔ name ∈ m.enums.map (·.name) := by
  simp [enum?, List.find?_isSome]

theorem message_eq_ok {spec : Message} (h : m.message name = .ok spec) :
    m.message? name = some spec := by
  rw [message] at h
  split at h
  · rename_i found hfound
    cases h
    exact hfound
  · cases h

theorem message_of_message? {spec : Message} (h : m.message? name = some spec) :
    m.message name = .ok spec := by
  rw [message, h]

theorem mem_of_message? {spec : Message} (h : m.message? name = some spec) : spec ∈ m.messages :=
  List.mem_of_find?_eq_some h

theorem enum_eq_ok {spec : Enumeration} (h : m.enum name = .ok spec) :
    m.enum? name = some spec := by
  rw [enum] at h
  split at h
  · rename_i found hfound
    cases h
    exact hfound
  · cases h

theorem enum_of_enum? {spec : Enumeration} (h : m.enum? name = some spec) :
    m.enum name = .ok spec := by
  rw [enum, h]

theorem mem_of_enum? {spec : Enumeration} (h : m.enum? name = some spec) : spec ∈ m.enums :=
  List.mem_of_find?_eq_some h


end Model

/-- A variant has the index at which it stands, as no other one has its name. -/
theorem Enumeration.indexOf?_of_getElem? {spec : Enumeration} (h : spec.variants.Nodup) {i : Nat}
    {variant : String} (hi : spec.variants[i]? = some variant) :
    spec.indexOf? variant = some i := by
  obtain ⟨hlt, hget⟩ := List.getElem?_eq_some_iff.1 hi
  rw [indexOf?, List.findIdx?_eq_some_iff_getElem]
  refine ⟨hlt, by simpa using hget, fun j hj => ?_⟩
  have hne : spec.variants[j] ≠ spec.variants[i] := by
    intro heq
    exact absurd (h.getElem_inj_iff.1 heq) (Nat.ne_of_lt hj)
  rw [hget] at hne
  simpa using hne

/-- What stands at the index of a variant is the variant. -/
theorem Enumeration.getElem?_of_indexOf? {spec : Enumeration} {i : Nat} {variant : String}
    (h : spec.indexOf? variant = some i) : spec.variants[i]? = some variant := by
  obtain ⟨hlt, hp, -⟩ := List.findIdx?_eq_some_iff_getElem.1 h
  rw [List.getElem?_eq_getElem hlt]
  simpa using hp

end FeltRelay.Schema
