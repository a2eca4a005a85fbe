import FeltRelay.Proofs.Codec.ByteString
import FeltRelay.Proofs.Codec.Element
import FeltRelay.Proofs.Codec.Flat.Encode
import FeltRelay.Proofs.Codec.Valid
import FeltRelay.Proofs.Schema.Text

/-!
# What the encoder accepts

The flat encoder accepts the values of a type, and names the first fault of every other value.
-/

namespace FeltRelay.Codec

open FeltRelay.Schema FeltRelay.Text

variable {α β : Type} {m : Model} {modulus : Int} {path : String}

/-! ### Judgements -/

/-- A result judges a value: it is there if the value is valid, and if not, it says where and of
what kind the fault is. -/
def Judged (valid : Prop) (fault : String → Failure.Kind → Prop) : Except Failure α → Prop
  | .ok _ => valid
  | .error f => ∃ place, f.place = .path place ∧ fault place f.kind

namespace Judged

variable {valid valid' : Prop} {fault fault' : String → Failure.Kind → Prop}

theorem imp {r : Except Failure α} (h : Judged valid fault r) (hvalid : valid → valid')
    (hfault : ∀ place kind, fault place kind → fault' place kind) : Judged valid' fault' r := by
  cases r with
  | ok a => exact hvalid h
  | error f =>
    obtain ⟨place, hplace, h⟩ := h
    exact ⟨place, hplace, hfault _ _ h⟩

theorem map {r : Except Failure α} (h : Judged valid fault r) (f : α → β) :
    Judged valid fault (r.map f) := by
  cases r with
  | ok a => exact h
  | error e => exact h

/-- Two steps judge what each of them does, the first one first. -/
theorem followedBy {e : Emission α} {next : Unit → Emission α} (he : Judged valid fault e.result)
    (hnext : Judged valid' fault' (next ()).result) :
    Judged (valid ∧ valid') (fun place kind => fault place kind ∨ valid ∧ fault' place kind)
      (e.followedBy next).result := by
  rw [Emission.result_followedBy]
  cases hr : e.result with
  | error f =>
    rw [hr] at he
    obtain ⟨place, hplace, h⟩ := he
    exact ⟨place, hplace, .inl h⟩
  | ok xs =>
    rw [hr] at he
    rw [ok_bind]
    exact (hnext.map (xs ++ ·)).imp (fun h => ⟨he, h⟩) fun _ _ h => .inr ⟨he, h⟩

end Judged

/-- The first of some things that does not hold is at fault; its index counts. -/
def FirstOf (holds : α → Prop) (fault : Nat → α → String → Failure.Kind → Prop) (xs : List α)
    (place : String) (kind : Failure.Kind) : Prop :=
  ∃ before x after, xs = before ++ x :: after ∧ (∀ a ∈ before, holds a) ∧
    fault before.length x place kind

theorem firstOf_cons {holds : α → Prop} {fault : Nat → α → String → Failure.Kind → Prop} {x : α}
    {xs : List α} {place : String} {kind : Failure.Kind}
    (h : fault 0 x place kind ∨ holds x ∧ FirstOf holds (fun i => fault (i + 1)) xs place kind) :
    FirstOf holds fault (x :: xs) place kind := by
  rcases h with h | ⟨hx, before, y, after, rfl, hbefore, h⟩
  · exact ⟨[], x, xs, rfl, fun a ha => absurd ha List.not_mem_nil, h⟩
  · exact ⟨x :: before, y, after, rfl, List.forall_mem_cons.2 ⟨hx, hbefore⟩, h⟩

/-! ### Scalars -/

/-- An integer that is read and then tested. -/
theorem judged_number {allowed : Int → Prop} {next : Int → Except Failure Int} {v : Json}
    (hin : ∀ i, allowed i → ∃ e, next i = .ok e)
    (hout : ∀ i, ¬allowed i → ∃ text, next i = .error (.rangeOverflow path text i)) :
    Judged (∃ i, Denotes v i ∧ allowed i)
      (fun place kind => place = path ∧ NumberFault allowed v kind)
      (readInteger path v >>= next) := by
  rcases readInteger_eq path v with ⟨i, hread, hi⟩ | ⟨f, hread, hkind, hplace, hnone⟩
  · rw [hread, ok_bind]
    have hdenotes := (hi i).2 rfl
    by_cases hallowed : allowed i
    · obtain ⟨e, he⟩ := hin i hallowed
      rw [he]
      exact ⟨i, hdenotes, hallowed⟩
    · obtain ⟨text, ht⟩ := hout i hallowed
      rw [ht]
      exact ⟨path, rfl, rfl, .inr ⟨⟨i, hdenotes, hallowed⟩, rfl⟩⟩
  · rw [hread]
    exact ⟨path, hplace, rfl, .inl ⟨hnone, hkind⟩⟩

theorem judged_toElement (hp : modulus ≠ 0) {s : Scalar} (hs : s.isByteString = false) (v : Json) :
    Judged (ValidScalar modulus s v) (fun place kind => place = path ∧ ScalarFault modulus s v kind)
      (toElement modulus s path v) := by
  have integer (hs : s.isInteger = true) :
      Judged (∃ i, Denotes v i ∧ s.least ≤ i ∧ i ≤ s.greatest) (fun place kind => place = path ∧
        NumberFault (fun i => s.least ≤ i ∧ i ≤ s.greatest) v kind)
        (toElement modulus s path v) := by
    rw [toElement_of_isInteger hs]
    refine judged_number (fun i hi => ?_) fun i hi => ?_
    · exact ⟨_, by rw [if_neg (not_not.2 hi), if_neg hp]; rfl⟩
    · exact ⟨_, by rw [if_pos hi]; rfl⟩
  cases s with
  | bool =>
    cases v with
    | bool b => exact ⟨b, rfl⟩
    | _ =>
      refine ⟨path, rfl, rfl, fun b h => ?_, rfl⟩
      cases h
  | felt =>
    refine judged_number (fun i hi => ?_) fun i hi => ?_
    · exact ⟨i, if_pos hi⟩
    · exact ⟨_, if_neg hi⟩
  | unsigned w => exact integer rfl
  | signed w => exact integer rfl
  | text | bytes => cases hs

theorem judged_bytesOfJson {s : Scalar} (hs : s.isByteString = true) (v : Json) :
    Judged (ValidScalar modulus s v) (fun place kind => place = path ∧ ScalarFault modulus s v kind)
      (bytesOfJson s path v) := by
  rcases kind_of_isByteString hs with rfl | rfl
  · cases v with
    | str text => exact ⟨text, rfl⟩
    | _ =>
      refine ⟨path, rfl, rfl, fun text h => ?_, rfl⟩
      cases h
  · cases v with
    | str text =>
      have refused (hnot : ¬HexText text) (wording : String) :
          Judged (ValidScalar modulus .bytes (.str text))
            (fun place kind => place = path ∧ ScalarFault modulus .bytes (.str text) kind)
            (.error (.typeMismatch path wording) : Except Failure (List UInt8)) :=
        ⟨path, rfl, rfl, fun _ heq => Json.str.inj heq ▸ hnot, rfl⟩
      rw [bytesOfJson, if_neg (by decide)]
      split
      · rename_i digits htext
        have hdigits : HexText text ↔ digits.length % 2 = 0 ∧ Hex.Pairs digits := by
          constructor
          · rintro ⟨digits', htext', h⟩
            cases htext.symm.trans htext'
            exact h
          · exact fun h => ⟨digits, htext, h⟩
        split
        · exact refused (fun h => by have := (hdigits.1 h).1; omega) _
        · cases hdecode : Hex.decode? digits with
          | some bytes =>
            have hpairs := Hex.decode?_isSome_iff.1 (Option.isSome_of_mem hdecode)
            exact ⟨text, rfl, hdigits.2 ⟨by omega, hpairs⟩⟩
          | none =>
            refine refused (fun h => ?_) _
            have := Hex.decode?_isSome_iff.2 (hdigits.1 h).2
            rw [hdecode] at this
            cases this
      · rename_i hshape
        refine refused ?_ _
        rintro ⟨digits, htext, -⟩
        exact hshape digits htext
    | _ =>
      refine ⟨path, rfl, rfl, fun text h => ?_, rfl⟩
      cases h

namespace Flat

/-! ### Types -/

theorem judged_encodeItems {encode : String → Json → Emission Int} {t : Ty} {vs : List Json}
    (h : ∀ path, ∀ v ∈ vs,
      Judged (Valid m modulus t v) (FirstFault m modulus t path v) (encode path v).result)
    (i : Nat) :
    Judged (∀ v ∈ vs, Valid m modulus t v)
      (FirstOf (Valid m modulus t) (fun k v => FirstFault m modulus t (itemPath path (i + k)) v) vs)
      (encodeItems encode path i vs).result := by
  induction vs generalizing i with
  | nil => exact fun v hv => absurd hv List.not_mem_nil
  | cons v vs ih =>
    have hhead := h (itemPath path i) v (List.mem_cons_self ..)
    have htail := ih (fun path w hw => h path w (List.mem_cons_of_mem _ hw)) (i + 1)
    rw [encodeItems]
    refine (hhead.followedBy htail).imp (fun hv => List.forall_mem_cons.2 hv)
      fun place kind hf => ?_
    refine firstOf_cons (hf.imp_right fun h => ⟨h.1, ?_⟩)
    -- The items behind the first one are counted from the next index.
    simpa only [Nat.add_right_comm i 1, Nat.add_assoc] using h.2

theorem judged_enum {name : String} (hdecl : (m.enum? name).isSome)
    (ofMessage : String → String → Json → Emission Int) (v : Json) :
    Judged (Valid m modulus (.enum name) v) (FirstFault m modulus (.enum name) path v)
      (encodeTy m modulus ofMessage (.enum name) path v).result := by
  obtain ⟨spec, hspec⟩ := Option.isSome_iff_exists.1 hdecl
  cases v with
  | str variant =>
    simp only [encodeTy, Model.enum_of_enum? hspec]
    cases hi : spec.indexOf? variant with
    | some i => exact .enum hspec (List.mem_of_getElem? (Enumeration.getElem?_of_indexOf? hi))
    | none =>
      refine ⟨path, rfl, .notVariant hspec fun hmem => ?_⟩
      have hnone := List.findIdx?_eq_none_iff.1 hi variant hmem
      simp at hnone
  | _ =>
    simp only [encodeTy, Model.enum_of_enum? hspec]
    exact ⟨path, rfl, .notName fun variant h => by cases h⟩

/-- What the encoder of messages has to do with the values of a depth. -/
def JudgesMessages (m : Model) (modulus : Int) (depth : Nat) : Prop :=
  ∀ {name path v}, (m.message? name).isSome → v.depth < depth →
    Judged (Valid m modulus (.message name) v) (FirstFault m modulus (.message name) path v)
      (encodeMessage m modulus depth name path v).result

variable {depth : Nat}

theorem judged_encodeTy (hp : modulus ≠ 0) (hmsg : JudgesMessages m modulus depth) {t : Ty}
    (ht : t.Declared m) {path : String} {v : Json} (hdepth : v.depth < depth) :
    Judged (Valid m modulus t v) (FirstFault m modulus t path v)
      (encodeTy m modulus (encodeMessage m modulus depth) t path v).result := by
  induction t generalizing path v with
  | scalar s =>
    have hfault : ∀ place kind, place = path ∧ ScalarFault modulus s v kind →
        FirstFault m modulus (.scalar s) path v place kind := by
      rintro place kind ⟨rfl, h⟩
      exact .scalar h
    by_cases hs : s.isByteString = true
    · rw [encodeTy_byteString hs]
      exact ((judged_bytesOfJson hs v).map _).imp .scalar hfault
    · have hs' := Bool.eq_false_of_not_eq_true hs
      rw [encodeTy_scalar hs']
      exact ((judged_toElement hp hs' v).map _).imp .scalar hfault
  | message name => exact hmsg ht hdepth
  | enum name => exact judged_enum ht _ v
  | optional t ih =>
    by_cases hv : v = .null
    · subst hv
      exact .absent
    · rw [encodeTy_optional hv, Emission.result_write_followedBy]
      exact ((ih ht hdepth).map _).imp .optional fun _ _ h => .optional hv h
  | array t ih =>
    cases v with
    | arr vs =>
      have hitems : ∀ path, ∀ v ∈ vs, Judged (Valid m modulus t v) (FirstFault m modulus t path v)
          (encodeTy m modulus (encodeMessage m modulus depth) t path v).result :=
        fun path v hv => ih ht ((Json.depth_lt_of_mem hv).trans hdepth)
      rw [encodeTy, Emission.result_write_followedBy]
      refine ((judged_encodeItems hitems 0).map _).imp .array ?_
      rintro place kind ⟨before, w, after, rfl, hbefore, h⟩
      rw [Nat.zero_add] at h
      exact .item hbefore h
    | _ => exact ⟨path, rfl, .notArray fun vs h => by cases h⟩

/-! ### Messages -/

/-- What is at fault with the field of a message. -/
def FieldFault (m : Model) (modulus : Int) (path : String) (ms : List (String × Json)) (f : Field)
    (place : String) (kind : Failure.Kind) : Prop :=
  match ms.lookup f.name with
  | some v => FirstFault m modulus f.type (memberPath path f.name) v place kind
  | none => f.type.isOptional = false ∧ place = memberPath path f.name ∧ kind = .typeMismatch

theorem judged_encodeFields {encode : Ty → String → Json → Emission Int} {name : String}
    {ms : List (String × Json)} {fields : List Field}
    (h : ∀ f ∈ fields, ∀ path v, ms.lookup f.name = some v →
      Judged (Valid m modulus f.type v) (FirstFault m modulus f.type path v)
        (encode f.type path v).result) :
    Judged (∀ f ∈ fields, ValidField m modulus ms f)
      (FirstOf (ValidField m modulus ms) (fun _ => FieldFault m modulus path ms) fields)
      (encodeFields encode name path ms fields).result := by
  induction fields with
  | nil => exact fun f hf => absurd hf List.not_mem_nil
  | cons f fields ih =>
    rw [encodeFields]
    have htail := ih fun g hg => h g (List.mem_cons_of_mem _ hg)
    refine (Judged.followedBy ?_ htail).imp (fun hv => List.forall_mem_cons.2 hv)
      fun place kind hf => firstOf_cons hf
    cases hl : ms.lookup f.name with
    | some v =>
      refine (h f (List.mem_cons_self ..) _ v hl).imp (validField_of_lookup hl)
        fun place kind hf => ?_
      rw [FieldFault, hl]
      exact hf
    | none =>
      by_cases hopt : f.type.isOptional = true
      · rw [if_pos hopt]
        exact validField_of_missing hl hopt
      · rw [if_neg hopt]
        refine ⟨memberPath path f.name, rfl, ?_⟩
        rw [FieldFault, hl]
        exact ⟨Bool.eq_false_of_not_eq_true hopt, rfl, rfl⟩

theorem judgesMessages (hp : modulus ≠ 0) (hm : m.Closed) (depth : Nat) :
    JudgesMessages m modulus depth := by
  induction depth with
  | zero =>
    intro name path v _ hdepth
    exact absurd hdepth (Nat.not_lt_zero _)
  | succ depth ih =>
    intro name path v hdecl hdepth
    obtain ⟨spec, hspec⟩ := Option.isSome_iff_exists.1 hdecl
    cases v with
    | obj ms =>
      by_cases hu : unknownNames spec ms = []
      · have hknown := unknownNames_eq_nil_iff.1 hu
        rw [encodeMessage_obj hspec hu]
        refine (judged_encodeFields fun f hf path v hl => ?_).imp
          (valid_message_iff hspec hknown).2 ?_
        · have hinner := Json.depth_lt_of_lookup hl
          exact judged_encodeTy hp ih (hm spec (Model.mem_of_message? hspec) f hf) (by omega)
        · rintro place kind ⟨before, f, after, hfields, hbefore, h⟩
          rw [FieldFault] at h
          split at h
          · rename_i v hl
            exact .field hspec hknown hfields hbefore hl h
          · rename_i hl
            obtain ⟨hopt, rfl, rfl⟩ := h
            exact .missing hspec hknown hfields hbefore hl hopt
      · obtain ⟨e, he, hunknown⟩ : ∃ e ∈ ms, e.1 ∉ spec.fieldNames := by
          by_contra hnone
          refine hu (unknownNames_eq_nil_iff.2 fun e he => ?_)
          exact by_contra fun hunknown => hnone ⟨e, he, hunknown⟩
        simp only [encodeMessage, Model.message_of_message? hspec]
        exact ⟨path, rfl, .unknownMember hspec he hunknown⟩
    | _ =>
      simp only [encodeMessage, Model.message_of_message? hspec]
      exact ⟨path, rfl, .notObject fun ms h => by cases h⟩

/-! ### Whole values -/

theorem judged_encode (hp : modulus ≠ 0) (hm : m.Closed) {t : Ty} (ht : t.Declared m) (v : Json) :
    Judged (Valid m modulus t v) (FirstFault m modulus t "$" v) (encode m modulus t v) :=
  judged_encodeTy hp (judgesMessages hp hm _) ht (Nat.lt_succ_self _)

/-- A pixel with two faults: its second part has a hue that there is not, and behind its parts its
own hue is missing. -/
def smudge : Json :=
  .obj [("x", .int 7), ("parts", .arr [
    .obj [("x", " 0x7f "), ("parts", .arr []), ("hue", "Red")],
    .obj [("x", .int 0), ("parts", .arr []), ("hue", "Green")]])]

/-- Pairs of digits with blanks between them, not around them. -/
inductive SpacedPairs : List Char → Prop
  | nil : SpacedPairs []
  | pair {c d : Char} (hc : isHexDigit c = true) (hd : isHexDigit d = true) : SpacedPairs [c, d]
  | append {c d : Char} {gap s : List Char} (hc : isHexDigit c = true) (hd : isHexDigit d = true)
    (hgap : ∀ b ∈ gap, Hex.isAsciiBlank b = true) (h : SpacedPairs s) (hne : s ≠ []) :
    SpacedPairs (c :: d :: (gap ++ s))

theorem SpacedPairs.isHexDigit_head {c : Char} {s : List Char} (h : SpacedPairs (c :: s)) :
    isHexDigit c = true := by
  cases h with
  | pair hc _ => exact hc
  | append hc _ _ _ _ => exact hc

end Flat

end FeltRelay.Codec
