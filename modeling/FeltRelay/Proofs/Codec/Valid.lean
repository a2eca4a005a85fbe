import FeltRelay.Codec.Flat.Encode
import FeltRelay.Proofs.Codec.Number
import FeltRelay.Proofs.Schema.WellFormed

/-!
# The values of a type

Which JSON values a type has (`Valid`), and for the others which part of the value is the first one
at fault, read in the order of encoding, and with what (`FirstFault`). Both are said by the type
alone, without an encoder. No valid value has a fault (`FirstFault.not_valid`), and a value has one
first fault at the most (`FirstFault.unique`).
-/

namespace FeltRelay.Codec

open FeltRelay.Schema FeltRelay.Text

/-! ### Scalars -/

/-- The integers of a kind. -/
def InRange (modulus : Int) : Scalar → Int → Prop
  | .felt, i => 0 ≤ i ∧ i < modulus
  | s, i => s.least ≤ i ∧ i ≤ s.greatest

/-- Raw bytes: `0x` and an even number of characters, which are pairs of digits and blanks. -/
def HexText (text : String) : Prop :=
  ∃ digits, text.toList = '0' :: 'x' :: digits ∧ digits.length % 2 = 0 ∧ Hex.Pairs digits

/-- The values of a scalar kind. -/
def ValidScalar (modulus : Int) : Scalar → Json → Prop
  | .bool, v => ∃ b, v = .bool b
  | .text, v => ∃ text, v = .str text
  | .bytes, v => ∃ text, v = .str text ∧ HexText text
  | s, v => ∃ i, Denotes v i ∧ InRange modulus s i

/-- What is at fault with a value that stands for none of certain integers. -/
def NumberFault (allowed : Int → Prop) (v : Json) (kind : Failure.Kind) : Prop :=
  (∀ i, ¬Denotes v i) ∧ kind = .typeMismatch ∨
    (∃ i, Denotes v i ∧ ¬allowed i) ∧ kind = .rangeOverflow

/-- What is at fault with a value that a scalar kind does not have. -/
def ScalarFault (modulus : Int) : Scalar → Json → Failure.Kind → Prop
  | .bool, v, kind => (∀ b, v ≠ .bool b) ∧ kind = .typeMismatch
  | .text, v, kind => (∀ text, v ≠ .str text) ∧ kind = .typeMismatch
  | .bytes, v, kind => (∀ text, v = .str text → ¬HexText text) ∧ kind = .typeMismatch
  | s, v, kind => NumberFault (InRange modulus s) v kind

variable {modulus : Int}

theorem NumberFault.not_allowed {allowed : Int → Prop} {v : Json} {kind : Failure.Kind}
    (h : NumberFault allowed v kind) : ¬∃ i, Denotes v i ∧ allowed i := by
  rintro ⟨i, hi, hallowed⟩
  rcases h with ⟨hnone, -⟩ | ⟨⟨j, hj, hout⟩, -⟩
  · exact hnone i hi
  · exact hout (hi.unique hj ▸ hallowed)

theorem NumberFault.unique {allowed : Int → Prop} {v : Json} {kind kind' : Failure.Kind}
    (h : NumberFault allowed v kind) (h' : NumberFault allowed v kind') : kind = kind' := by
  rcases h with ⟨hnone, rfl⟩ | ⟨⟨i, hi, -⟩, rfl⟩ <;>
    rcases h' with ⟨hnone', rfl⟩ | ⟨⟨j, hj, -⟩, rfl⟩
  · rfl
  · exact absurd hj (hnone j)
  · exact absurd hi (hnone' i)
  · rfl

theorem ScalarFault.not_valid {s : Scalar} {v : Json} {kind : Failure.Kind}
    (h : ScalarFault modulus s v kind) : ¬ValidScalar modulus s v := by
  cases s with
  | bool => exact fun ⟨b, hb⟩ => h.1 b hb
  | text => exact fun ⟨text, htext⟩ => h.1 text htext
  | bytes => exact fun ⟨text, htext, hhex⟩ => h.1 text htext hhex
  | _ => exact NumberFault.not_allowed h

theorem ScalarFault.unique {s : Scalar} {v : Json} {kind kind' : Failure.Kind}
    (h : ScalarFault modulus s v kind) (h' : ScalarFault modulus s v kind') : kind = kind' := by
  cases s with
  | bool | text | bytes => exact h.2.trans h'.2.symm
  | _ => exact NumberFault.unique h h'

/-! ### Types -/

/-- The values of a type. -/
inductive Valid (m : Model) (modulus : Int) : Ty → Json → Prop
  | scalar {s : Scalar} {v : Json} (h : ValidScalar modulus s v) : Valid m modulus (.scalar s) v
  | absent {t : Ty} : Valid m modulus (.optional t) .null
  | optional {t : Ty} {v : Json} (h : Valid m modulus t v) : Valid m modulus (.optional t) v
  | array {t : Ty} {vs : List Json} (h : ∀ v ∈ vs, Valid m modulus t v) :
    Valid m modulus (.array t) (.arr vs)
  | enum {name variant : String} {spec : Enumeration} (hspec : m.enum? name = some spec)
    (h : variant ∈ spec.variants) : Valid m modulus (.enum name) (.str variant)
  | message {name : String} {spec : Message} {ms : List (String × Json)}
    (hspec : m.message? name = some spec) (hknown : ∀ e ∈ ms, e.1 ∈ spec.fieldNames)
    (hthere : ∀ f ∈ spec.fields, ms.lookup f.name = none → f.type.isOptional = true)
    (hfields : ∀ f ∈ spec.fields, ∀ v, ms.lookup f.name = some v → Valid m modulus f.type v) :
    Valid m modulus (.message name) (.obj ms)

/-- The members of an object have what a field asks for. -/
def ValidField (m : Model) (modulus : Int) (ms : List (String × Json)) (f : Field) : Prop :=
  (ms.lookup f.name = none → f.type.isOptional = true) ∧
    ∀ v, ms.lookup f.name = some v → Valid m modulus f.type v

/-- The first part of a value at a path that its type does not allow, in the order of encoding: the
path of the part and the kind of its fault. -/
inductive FirstFault (m : Model) (modulus : Int) :
    Ty → String → Json → String → Failure.Kind → Prop
  | scalar {s : Scalar} {path : String} {v : Json} {kind : Failure.Kind}
    (h : ScalarFault modulus s v kind) : FirstFault m modulus (.scalar s) path v path kind
  | optional {t : Ty} {path place : String} {v : Json} {kind : Failure.Kind} (hv : v ≠ .null)
    (h : FirstFault m modulus t path v place kind) :
    FirstFault m modulus (.optional t) path v place kind
  | notArray {t : Ty} {path : String} {v : Json} (h : ∀ vs, v ≠ .arr vs) :
    FirstFault m modulus (.array t) path v path .typeMismatch
  | item {t : Ty} {path place : String} {before after : List Json} {v : Json}
    {kind : Failure.Kind} (hbefore : ∀ w ∈ before, Valid m modulus t w)
    (h : FirstFault m modulus t (itemPath path before.length) v place kind) :
    FirstFault m modulus (.array t) path (.arr (before ++ v :: after)) place kind
  | notName {name path : String} {v : Json} (h : ∀ variant, v ≠ .str variant) :
    FirstFault m modulus (.enum name) path v path .typeMismatch
  | notVariant {name path variant : String} {spec : Enumeration}
    (hspec : m.enum? name = some spec) (h : variant ∉ spec.variants) :
    FirstFault m modulus (.enum name) path (.str variant) path .unknownVariant
  | notObject {name path : String} {v : Json} (h : ∀ ms, v ≠ .obj ms) :
    FirstFault m modulus (.message name) path v path .typeMismatch
  | unknownMember {name path : String} {spec : Message} {ms : List (String × Json)}
    {e : String × Json} (hspec : m.message? name = some spec) (he : e ∈ ms)
    (h : e.1 ∉ spec.fieldNames) :
    FirstFault m modulus (.message name) path (.obj ms) path .typeMismatch
  | missing {name path : String} {spec : Message} {ms : List (String × Json)}
    {before after : List Field} {f : Field} (hspec : m.message? name = some spec)
    (hknown : ∀ e ∈ ms, e.1 ∈ spec.fieldNames) (hfields : spec.fields = before ++ f :: after)
    (hbefore : ∀ g ∈ before, ValidField m modulus ms g) (hl : ms.lookup f.name = none)
    (hopt : f.type.isOptional = false) :
    FirstFault m modulus (.message name) path (.obj ms) (memberPath path f.name) .typeMismatch
  | field {name path place : String} {spec : Message} {ms : List (String × Json)}
    {before after : List Field} {f : Field} {v : Json} {kind : Failure.Kind}
    (hspec : m.message? name = some spec) (hknown : ∀ e ∈ ms, e.1 ∈ spec.fieldNames)
    (hfields : spec.fields = before ++ f :: after)
    (hbefore : ∀ g ∈ before, ValidField m modulus ms g) (hl : ms.lookup f.name = some v)
    (h : FirstFault m modulus f.type (memberPath path f.name) v place kind) :
    FirstFault m modulus (.message name) path (.obj ms) place kind

variable {m : Model}

theorem mem_of_eq_append {α : Type} {xs before after : List α} {x : α}
    (h : xs = before ++ x :: after) : x ∈ xs := by
  rw [h]
  exact List.mem_append_right _ (List.mem_cons_self ..)

/-- The first of some things that do not hold is found in one place. -/
theorem eq_of_first {α : Type} {P : α → Prop} {xs xs' ys ys' : List α} {x x' : α}
    (h : xs ++ x :: ys = xs' ++ x' :: ys') (hxs : ∀ a ∈ xs, P a) (hx : ¬P x)
    (hxs' : ∀ a ∈ xs', P a) (hx' : ¬P x') : xs = xs' ∧ x = x' := by
  induction xs generalizing xs' with
  | nil =>
    cases xs' with
    | nil => exact ⟨rfl, (List.cons.inj h).1⟩
    | cons a xs' =>
      cases (List.cons.inj h).1
      exact absurd (hxs' _ (List.mem_cons_self ..)) hx
  | cons a xs ih =>
    cases xs' with
    | nil =>
      cases (List.cons.inj h).1
      exact absurd (hxs _ (List.mem_cons_self ..)) hx'
    | cons a' xs' =>
      obtain ⟨rfl, hrest⟩ := List.cons.inj h
      obtain ⟨rfl, hxx⟩ := ih hrest (fun b hb => hxs b (List.mem_cons_of_mem _ hb))
        fun b hb => hxs' b (List.mem_cons_of_mem _ hb)
      exact ⟨rfl, hxx⟩

/-- Message by message, a value is valid if each field is. -/
theorem valid_message_iff {name : String} {spec : Message} {ms : List (String × Json)}
    (hspec : m.message? name = some spec) (hknown : ∀ e ∈ ms, e.1 ∈ spec.fieldNames) :
    Valid m modulus (.message name) (.obj ms) ↔ ∀ f ∈ spec.fields, ValidField m modulus ms f := by
  constructor
  · intro h f hf
    cases h with
    | message hspec' _ hthere hfields =>
      cases hspec.symm.trans hspec'
      exact ⟨hthere f hf, hfields f hf⟩
  · intro h
    exact .message hspec hknown (fun f hf => (h f hf).1) fun f hf => (h f hf).2

theorem validField_of_missing {ms : List (String × Json)} {f : Field}
    (hl : ms.lookup f.name = none) (hopt : f.type.isOptional = true) :
    ValidField m modulus ms f := by
  refine ⟨fun _ => hopt, fun v hv => ?_⟩
  rw [hl] at hv
  cases hv

theorem validField_of_lookup {ms : List (String × Json)} {f : Field} {v : Json}
    (hl : ms.lookup f.name = some v) (hv : Valid m modulus f.type v) :
    ValidField m modulus ms f := by
  refine ⟨fun hnone => ?_, fun w hw => ?_⟩
  · rw [hl] at hnone
    cases hnone
  · rw [hl] at hw
    cases hw
    exact hv

theorem not_validField_of_missing {ms : List (String × Json)} {f : Field}
    (hl : ms.lookup f.name = none) (hopt : f.type.isOptional = false) :
    ¬ValidField m modulus ms f := by
  intro h
  rw [h.1 hl] at hopt
  cases hopt

theorem not_validField_of_lookup {ms : List (String × Json)} {f : Field} {v : Json}
    (hl : ms.lookup f.name = some v) (hv : ¬Valid m modulus f.type v) :
    ¬ValidField m modulus ms f := fun h => hv (h.2 v hl)

namespace FirstFault

variable {t : Ty} {path place : String} {v : Json} {kind : Failure.Kind}

theorem not_valid (h : FirstFault m modulus t path v place kind) : ¬Valid m modulus t v := by
  induction h with
  | scalar h =>
    intro hv
    cases hv with
    | scalar hv => exact h.not_valid hv
  | optional hne _ ih =>
    intro hv
    cases hv with
    | absent => exact hne rfl
    | optional hv => exact ih hv
  | notArray h =>
    intro hv
    cases hv with
    | array _ => exact h _ rfl
  | item _ _ ih =>
    intro hv
    cases hv with
    | array hv => exact ih (hv _ (List.mem_append_right _ (List.mem_cons_self ..)))
  | notName h =>
    intro hv
    cases hv with
    | enum _ _ => exact h _ rfl
  | notVariant hspec h =>
    intro hv
    cases hv with
    | enum hspec' hmem =>
      cases hspec.symm.trans hspec'
      exact h hmem
  | notObject h =>
    intro hv
    cases hv with
    | message _ _ _ _ => exact h _ rfl
  | unknownMember hspec he h =>
    intro hv
    cases hv with
    | message hspec' hknown _ _ =>
      cases hspec.symm.trans hspec'
      exact h (hknown _ he)
  | missing hspec hknown hfields _ hl hopt =>
    intro hv
    have hfield := (valid_message_iff hspec hknown).1 hv _ (mem_of_eq_append hfields)
    exact not_validField_of_missing hl hopt hfield
  | field hspec hknown hfields _ hl _ ih =>
    intro hv
    have hfield := (valid_message_iff hspec hknown).1 hv _ (mem_of_eq_append hfields)
    exact not_validField_of_lookup hl ih hfield

theorem unique (h : FirstFault m modulus t path v place kind) {place' : String}
    {kind' : Failure.Kind} (h' : FirstFault m modulus t path v place' kind') :
    place = place' ∧ kind = kind' := by
  induction h with
  | scalar h =>
    cases h' with
    | scalar h' => exact ⟨rfl, h.unique h'⟩
  | optional _ _ ih =>
    cases h' with
    | optional _ h' => exact ih h'
  | notArray h =>
    cases h' with
    | notArray _ => exact ⟨rfl, rfl⟩
    | item _ _ => exact absurd rfl (h _)
  -- What stands before either fault is valid, and neither part at fault is: it is the same part.
  | item hbefore h ih =>
    generalize hvs : Json.arr _ = w at h'
    cases h' with
    | notArray hnot => exact absurd hvs.symm (hnot _)
    | item hbefore' h' =>
      obtain ⟨rfl, rfl⟩ := eq_of_first (Json.arr.inj hvs) hbefore h.not_valid hbefore' h'.not_valid
      exact ih h'
  | notName h =>
    cases h' with
    | notName _ => exact ⟨rfl, rfl⟩
    | notVariant _ _ => exact absurd rfl (h _)
  | notVariant _ _ =>
    cases h' with
    | notName hnot => exact absurd rfl (hnot _)
    | notVariant _ _ => exact ⟨rfl, rfl⟩
  | notObject h =>
    cases h' with
    | notObject _ => exact ⟨rfl, rfl⟩
    | _ => exact absurd rfl (h _)
  | unknownMember hspec he h =>
    cases h' with
    | notObject hnot => exact absurd rfl (hnot _)
    | unknownMember _ _ _ => exact ⟨rfl, rfl⟩
    | missing hspec' hknown _ _ _ _ =>
      cases hspec.symm.trans hspec'
      exact absurd (hknown _ he) h
    | field hspec' hknown _ _ _ _ =>
      cases hspec.symm.trans hspec'
      exact absurd (hknown _ he) h
  | missing hspec hknown hfields hbefore hl hopt =>
    have hself : ¬ValidField m modulus _ _ := not_validField_of_missing hl hopt
    cases h' with
    | notObject hnot => exact absurd rfl (hnot _)
    | unknownMember hspec' he h =>
      cases hspec.symm.trans hspec'
      exact absurd (hknown _ he) h
    | missing hspec' _ hfields' hbefore' hl' hopt' =>
      cases hspec.symm.trans hspec'
      obtain ⟨-, rfl⟩ := eq_of_first (hfields.symm.trans hfields') hbefore hself hbefore'
        (not_validField_of_missing hl' hopt')
      exact ⟨rfl, rfl⟩
    | field hspec' _ hfields' hbefore' hl' h' =>
      cases hspec.symm.trans hspec'
      obtain ⟨-, rfl⟩ := eq_of_first (hfields.symm.trans hfields') hbefore hself hbefore'
        (not_validField_of_lookup hl' h'.not_valid)
      cases hl.symm.trans hl'
  | field hspec hknown hfields hbefore hl h ih =>
    have hself := not_validField_of_lookup hl h.not_valid
    cases h' with
    | notObject hnot => exact absurd rfl (hnot _)
    | unknownMember hspec' he h =>
      cases hspec.symm.trans hspec'
      exact absurd (hknown _ he) h
    | missing hspec' _ hfields' hbefore' hl' hopt' =>
      cases hspec.symm.trans hspec'
      obtain ⟨-, rfl⟩ := eq_of_first (hfields.symm.trans hfields') hbefore hself hbefore'
        (not_validField_of_missing hl' hopt')
      cases hl.symm.trans hl'
    | field hspec' _ hfields' hbefore' hl' h' =>
      cases hspec.symm.trans hspec'
      obtain ⟨-, rfl⟩ := eq_of_first (hfields.symm.trans hfields') hbefore hself hbefore'
        (not_validField_of_lookup hl' h'.not_valid)
      cases hl.symm.trans hl'
      exact ih h'

end FirstFault

end FeltRelay.Codec
