import FeltRelay.Proofs.Codec.Agreement
import FeltRelay.Proofs.Codec.Flat.Width
import FeltRelay.Proofs.Schema.Layout

/-!
# Decoding by layout

Decoders of two types of one layout stop behind the same element of every sequence, or fail for one
kind of failure at one place (`agrees_decode`). So messages that are compatible may be taken for each
other on the wire, if not in what they mean (`wireCompatible_layout`).
-/

namespace FeltRelay.Codec

variable {α β γ δ : Type} {R : α → β → Prop} {S : γ → δ → Prop}

/-- Two decoders that fail alike, or give related values and leave the same input. -/
def Alike (R : α → β → Prop) (d : Decoder α) (d' : Decoder β) : Prop :=
  ∀ s, Agrees (fun r r' => R r.1 r'.1 ∧ r.2 = r'.2) (d.run s) (d'.run s)

/-- Any two values. -/
def whatever : α → β → Prop := fun _ _ => True

namespace Alike

theorem refl (d : Decoder α) : Alike Eq d d := by
  intro s
  cases d.run s with
  | error f => exact ⟨rfl, rfl⟩
  | ok r => exact ⟨rfl, rfl⟩

theorem pure {a : α} {b : β} (h : R a b) : Alike R (Pure.pure a) (Pure.pure b) :=
  fun _ => ⟨h, rfl⟩

theorem throw {f g : Failure} (hkind : f.kind = g.kind) (hplace : f.place = g.place) :
    Alike R (throw f) (throw g) := fun _ => ⟨hkind, hplace⟩

theorem bind {x : Decoder α} {y : Decoder β} {f : α → Decoder γ} {g : β → Decoder δ}
    (h : Alike R x y) (hfg : ∀ a b, R a b → Alike S (f a) (g b)) :
    Alike S (x >>= f) (y >>= g) := by
  intro s
  rw [StateT.run_bind, StateT.run_bind]
  refine (h s).bind ?_
  rintro ⟨a, s₁⟩ ⟨b, s₂⟩ ⟨hab, heq⟩
  obtain rfl : s₁ = s₂ := heq
  exact hfg a b hab s₁

/-- One step before what is alike. -/
theorem bind_left (x : Decoder α) {f : α → Decoder γ} {g : α → Decoder δ}
    (h : ∀ a, Alike S (f a) (g a)) : Alike S (x >>= f) (x >>= g) :=
  (refl x).bind fun a _ hab => hab ▸ h a

/-- Steps that do not depend on the input. -/
theorem liftM_bind {x : Except Failure α} {y : Except Failure β} {a : α} {b : β} (hx : x = .ok a)
    (hy : y = .ok b) {f : α → Decoder γ} {g : β → Decoder δ} (h : Alike S (f a) (g b)) :
    Alike S (liftM x >>= f) (liftM y >>= g) := by
  intro s
  rw [StateT.run_bind, StateT.run_bind, run_liftM, run_liftM, hx, hy]
  exact h s

theorem ite {c : Prop} [Decidable c] {x x' : Decoder α} {y y' : Decoder β} (h : Alike R x y)
    (h' : Alike R x' y') : Alike R (if c then x else x') (if c then y else y') := by
  split
  · exact h
  · exact h'

/-- A decoder leaves the input of its own run, whatever its value is taken for. -/
theorem self (d : Decoder α) : Alike whatever d d :=
  fun s => (refl d s).imp fun _ _ h => ⟨trivial, h.2⟩

theorem readTimes {d d' : Decoder Json} (h : Alike whatever d d') (n : Nat) :
    Alike whatever (Codec.readTimes d n) (Codec.readTimes d' n) := by
  induction n with
  | zero => exact pure trivial
  | succ n ih => exact h.bind fun _ _ _ => ih.bind fun _ _ _ => pure trivial

end Alike

namespace Flat

open FeltRelay.Schema FeltRelay.Schema.Model

variable {m : Model} {modulus : Int} {L : String → String → Prop}

/-! ### Widths -/

theorem widthTy_eq {ofMessage : String → Except Failure Nat}
    (hmsg : ∀ a b, L a b → ofMessage a = ofMessage b) {t u : Ty} (h : m.Matches L t u) :
    widthTy ofMessage t = widthTy ofMessage u := by
  cases h with
  | message h => exact hmsg _ _ h
  | _ => rfl

/-- The declared message of a name, with the types of its fields. -/
theorem exists_spec {a : String} (h : (m.message? a).isSome) :
    ∃ spec, m.message? a = some spec ∧ m.fieldTypes a = spec.fields.map (·.type) := by
  obtain ⟨spec, hspec⟩ := Option.isSome_iff_exists.1 h
  refine ⟨spec, hspec, ?_⟩
  rw [fieldTypes, hspec]

theorem widthMessage_eq (hL : m.IsLayoutRelation L) (budget : Nat) {a b : String} (h : L a b) :
    m.widthMessage budget a = m.widthMessage budget b := by
  induction budget generalizing a b with
  | zero => rfl
  | succ budget ih =>
    obtain ⟨spec, hspec, htypes⟩ := exists_spec (hL.declared h).1
    obtain ⟨spec', hspec', htypes'⟩ := exists_spec (hL.declared h).2
    have hfields := hL.fields h
    rw [htypes, htypes'] at hfields
    have hmsg : ∀ x y, L x y → m.widthMessage budget x = m.widthMessage budget y :=
      fun _ _ hxy => ih hxy
    have hwidths : ∀ {ts us : List Ty}, List.Forall₂ (m.Matches L) ts us →
        ts.mapM (widthTy (m.widthMessage budget)) = us.mapM (widthTy (m.widthMessage budget)) := by
      intro ts us hall
      induction hall with
      | nil => rfl
      | cons htu _ ihall => rw [List.mapM_cons, List.mapM_cons, widthTy_eq hmsg htu, ihall]
    have h' := hwidths hfields
    rw [List.mapM_map, List.mapM_map] at h'
    rw [widthMessage_of_message? budget hspec, widthMessage_of_message? budget hspec']
    exact congrArg _ h'

theorem minWidth_eq (hL : m.IsLayoutRelation L) {t u : Ty} (h : m.Matches L t u) :
    m.minWidth t = m.minWidth u :=
  widthTy_eq (fun _ _ hab => widthMessage_eq hL _ hab) h

/-! ### Types -/

/-- What an element is read for matters to the text of a failure only. -/
theorem alike_takeElement (what what' : String) :
    Alike Eq (takeElement modulus what) (takeElement modulus what') := by
  refine .bind_left get fun s => ?_
  cases s.rest with
  | nil => exact .throw rfl rfl
  | cons e rest => exact .refl _

theorem alike_decodeTy (hL : m.IsLayoutRelation L) {ofMessage : String → Decoder Json}
    (hmsg : ∀ a b, L a b → Alike whatever (ofMessage a) (ofMessage b)) {t u : Ty}
    (h : m.Matches L t u) :
    Alike whatever (decodeTy m modulus ofMessage t) (decodeTy m modulus ofMessage u) := by
  induction h with
  | scalar s => exact .self _
  | message h => exact hmsg _ _ h
  | optional _ ih =>
    refine .bind_left get fun start => .bind_left _ fun flag => ?_
    exact .ite (.pure trivial) (.ite ih (.throw rfl rfl))
  | array h ih =>
    -- The length is checked against the least width of an item, which is one of the layout.
    rw [decodeTy, decodeTy, minWidth_eq hL h]
    refine .bind_left get fun start => .bind_left _ fun n => .ite (.throw rfl rfl) ?_
    refine .bind_left _ fun width => .bind_left get fun s => .ite (.throw rfl rfl) ?_
    exact (ih.readTimes n).bind fun _ _ _ => .pure trivial
  | @enum a b spec spec' ha hb hlen =>
    refine .liftM_bind (enum_of_enum? ha) (enum_of_enum? hb) (.bind_left get fun start => ?_)
    refine (alike_takeElement _ _).bind fun i i' hi => ?_
    subst hi
    by_cases hlt : i < spec.variants.length
    · rw [List.getElem?_eq_getElem hlt, List.getElem?_eq_getElem (hlen ▸ hlt)]
      exact .pure trivial
    · rw [List.getElem?_eq_none (Nat.le_of_not_lt hlt),
        List.getElem?_eq_none (hlen ▸ Nat.le_of_not_lt hlt)]
      exact .throw rfl rfl

theorem alike_decodeFields {decode : Ty → Decoder Json} {fields fields' : List Field}
    (h : List.Forall₂ (fun f f' => Alike whatever (decode f.type) (decode f'.type)) fields fields')
    (ms ms' : List (String × Json)) :
    Alike whatever (decodeFields decode ms fields) (decodeFields decode ms' fields') := by
  induction h generalizing ms ms' with
  | nil => exact .pure trivial
  | cons hf _ ih => exact hf.bind fun v v' _ => ih _ _

theorem alike_decodeMessage (hL : m.IsLayoutRelation L) (depth : Nat) {a b : String} (h : L a b) :
    Alike whatever (decodeMessage m modulus depth a) (decodeMessage m modulus depth b) := by
  induction depth generalizing a b with
  | zero => exact .throw rfl rfl
  | succ depth ih =>
    obtain ⟨spec, hspec, htypes⟩ := exists_spec (hL.declared h).1
    obtain ⟨spec', hspec', htypes'⟩ := exists_spec (hL.declared h).2
    have hfields := hL.fields h
    rw [htypes, htypes', List.forall₂_map_left_iff, List.forall₂_map_right_iff] at hfields
    have hdecode : List.Forall₂ (fun (f f' : Field) => Alike whatever
        (decodeTy m modulus (decodeMessage m modulus depth) f.type)
        (decodeTy m modulus (decodeMessage m modulus depth) f'.type)) spec.fields spec'.fields :=
      hfields.imp fun _ _ ht => alike_decodeTy hL (fun _ _ hab => ih hab) ht
    refine .liftM_bind (message_of_message? hspec) (message_of_message? hspec') ?_
    exact (alike_decodeFields hdecode [] []).bind fun _ _ _ => .pure trivial

/-! ### Sequences -/

/-- Values of two types of one layout begin with the same elements of every sequence, or neither
type has a value there, for one kind of failure at one place. -/
theorem agrees_decode (hL : m.IsLayoutRelation L) {t u : Ty} (h : m.Matches L t u)
    (elements : List Json) (position : Nat) :
    Agrees (fun r r' => r.2 = r'.2) (decode m modulus t elements position)
      (decode m modulus u elements position) := by
  have hread : Alike whatever (read m modulus t) (read m modulus u) :=
    .bind_left get fun s => alike_decodeTy hL (fun _ _ hab => alike_decodeMessage hL _ hab) h
  refine (hread (.from elements position)).bind fun r r' hr => ?_
  have hstop : r.2 = r'.2 := hr.2
  show r.2.position - position = r'.2.position - position
  rw [hstop]

/-- Whether declared messages are compatible is always found out. They are if and only if a relation
of layouts holds of them, so being compatible is an equivalence of declared messages; and sequences
are decoded as the one exactly as far as they are decoded as the other. -/
theorem wireCompatible_layout {text : String} (h : ReadFrom text m) :
    (∀ a b, (m.message? a).isSome → (m.message? b).isSome → ∃ r, m.wireCompatible a b = .ok r ∧
      (r = true ↔ ∃ R, m.IsLayoutRelation R ∧ R a b)) ∧
    (∀ a, (m.message? a).isSome → m.wireCompatible a a = .ok true) ∧
    (∀ a b, m.wireCompatible a b = .ok true → m.wireCompatible b a = .ok true) ∧
    (∀ a b c, m.wireCompatible a b = .ok true → m.wireCompatible b c = .ok true →
      m.wireCompatible a c = .ok true) ∧
    ∀ a b, m.wireCompatible a b = .ok true → ∀ modulus elements position,
      Agrees (fun r r' => r.2 = r'.2) (decode m modulus (.message a) elements position)
        (decode m modulus (.message b) elements position) := by
  have hm : m.Closed := h.sound.closed
  refine ⟨fun a b ha hb => ⟨_, wireCompatible_eq ha hb, sameMessages_iff hm ha hb⟩, fun a ha => ?_,
    fun a b hab => ?_, fun a b c hab hbc => ?_, fun a b hab modulus elements position => ?_⟩
  · exact (wireCompatible_iff hm).2 ⟨_, isLayoutRelation_sameMessage hm, rfl, ha⟩
  · obtain ⟨R, hR, hab⟩ := (wireCompatible_iff hm).1 hab
    exact (wireCompatible_iff hm).2 ⟨_, hR.symm, hab⟩
  · obtain ⟨R, hR, hab⟩ := (wireCompatible_iff hm).1 hab
    obtain ⟨S, hS, hbc⟩ := (wireCompatible_iff hm).1 hbc
    exact (wireCompatible_iff hm).2 ⟨_, hR.comp hS, b, hab, hbc⟩
  · obtain ⟨R, hR, hab⟩ := (wireCompatible_iff hm).1 hab
    exact agrees_decode hR (.message hab) elements position

/-- Two messages that hold each other in arrays. -/
def mirrorText : String :=
  "message Left \x7b u8 x = 1; repeated Right rest = 2; \x7d
   message Right \x7b u8 y = 1; repeated Left rest = 2; \x7d"

/-- The model of `mirrorText`. -/
def mirror : Model where
  package := none
  messages := [⟨"Left", [⟨"x", .scalar (.unsigned .w8)⟩, ⟨"rest", .array (.message "Right")⟩]⟩,
    ⟨"Right", [⟨"y", .scalar (.unsigned .w8)⟩, ⟨"rest", .array (.message "Left")⟩]⟩]
  enums := []
  services := []

theorem ofText_mirrorText : Model.ofText mirrorText = .ok mirror := by
  rw [Model.ofText, Definitions.Declarations.ofText, Definitions.tokenize, mirrorText,
    String.toList_ofList]
  exact eq_ok_of_toOption (by decide +kernel)

/-- The two messages of `mirror` have one layout, which no finite unfolding of them shows. -/
theorem wireCompatible_layout_mirror : mirror.wireCompatible "Left" "Right" = .ok true ∧
    (∃ R, mirror.IsLayoutRelation R ∧ R "Left" "Right") ∧
    mirror.wireCompatible "Right" "Left" = .ok true ∧
    Agrees (fun r r' => r.2 = r'.2)
      (decode mirror starkPrime (.message "Left") ([7, 1, 8, 0, 9].map Json.int) 0)
      (decode mirror starkPrime (.message "Right") ([7, 1, 8, 0, 9].map Json.int) 0) := by
  obtain ⟨hfound, -, hsymm, -, hdecode⟩ := wireCompatible_layout (.definitions ofText_mirrorText)
  have hab : mirror.wireCompatible "Left" "Right" = .ok true := eq_ok_of_toOption (by decide +kernel)
  obtain ⟨r, hr, hiff⟩ := hfound "Left" "Right" (by decide) (by decide)
  rw [hab] at hr
  cases hr
  exact ⟨hab, hiff.1 rfl, hsymm _ _ hab, hdecode _ _ hab _ _ _⟩

end Flat

end FeltRelay.Codec
