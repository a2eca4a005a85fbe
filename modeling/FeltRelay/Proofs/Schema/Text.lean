import FeltRelay.Proofs.Schema.Containment
import FeltRelay.Proofs.Schema.Definitions
import FeltRelay.Proofs.Schema.Lock.Reader

/-!
# Models that were read from texts

A model comes from a definitions text or from a lock text. Either way it is sound, its messages have
a height over those that they contain, and it is no larger than its text.
-/

namespace FeltRelay.Schema.Model

/-- A model that was read from a text, of definitions or of a lock. -/
inductive ReadFrom (text : String) : Model → Prop
  | definitions {m : Model} (h : Model.ofText text = .ok m) : ReadFrom text m
  | lock {l : Lock} (h : Lock.ofText text = .ok l) : ReadFrom text l.model

variable {m : Model} {text : String}

theorem ReadFrom.sound (h : ReadFrom text m) : m.Sound := by
  cases h with
  | definitions h => exact sound_of_ofText h
  | lock h => exact Lock.sound_of_lock h

theorem ReadFrom.length_variants_le (h : ReadFrom text m) {spec : Enumeration}
    (hspec : spec ∈ m.enums) : spec.variants.length ≤ text.length + 1 := by
  cases h with
  | definitions h => exact length_variants_le_of_ofText h hspec
  | lock h => exact Lock.length_variants_le_of_lock h hspec

/-- What a message of a closed model contains is declared. -/
theorem Closed.declared_of_contains (h : m.Closed) {a b : String} (hab : m.Contains a b) :
    (m.message? b).isSome := by
  obtain ⟨field, hmem⟩ := hab
  cases hspec : m.message? a with
  | none =>
    rw [plainFields, hspec] at hmem
    cases hmem
  | some spec =>
    rw [plainFields, hspec] at hmem
    obtain ⟨f, hf, hmap⟩ := List.mem_filterMap.1 hmem
    obtain ⟨n, hn, hpair⟩ := Option.map_eq_some_iff.1 hmap
    cases hpair
    have hdecl := h spec (mem_of_message? hspec) f hf
    cases ht : f.type with
    | message n =>
      rw [ht] at hn hdecl
      cases hn
      exact hdecl
    | _ =>
      rw [ht] at hn
      cases hn

/-- A sound model has heights that fall along containment. -/
theorem Sound.exists_height (h : m.Sound) :
    ∃ height : String → Nat, (∀ a b, m.Contains a b → height b < height a) ∧
      ∀ a, height a ≤ m.messages.length :=
  Model.exists_height h.contained fun _ _ hab => h.closed.declared_of_contains hab

/-! ### A small text -/

/-- A small definitions text: a message that contains itself through an array, another one declared
behind it, and a method that takes the one to the other. -/
def canvasText : String :=
  "package art; enum Hue \x7b RED = 0; BLUE = 1; \x7d
   message Pixel \x7b i8 x = 1; optional bytes note = 2; repeated Pixel parts = 3; Hue hue = 4; \x7d
   message Ack \x7b \x7d service Canvas \x7b rpc Paint (Pixel) returns (Ack); \x7d"

/-- The model of `canvasText`. -/
def canvas : Model where
  package := some "art"
  messages := [⟨"Pixel", [⟨"x", .scalar (.signed .w8)⟩, ⟨"note", .optional (.scalar .bytes)⟩,
    ⟨"parts", .array (.message "Pixel")⟩, ⟨"hue", .enum "Hue"⟩]⟩, ⟨"Ack", []⟩]
  enums := [⟨"Hue", ["Red", "Blue"]⟩]
  services := [⟨"Canvas", [⟨"Paint", "paint", "paint", "Pixel", "Ack"⟩]⟩]

-- The characters of the text are taken from its literal first, or else the kernel decodes them.
theorem ofText_canvasText : Model.ofText canvasText = .ok canvas := by
  rw [ofText, Definitions.Declarations.ofText, Definitions.tokenize, canvasText,
    String.toList_ofList]
  exact eq_ok_of_toOption (by decide +kernel)

theorem length_canvasText_lt : canvasText.length < 2 ^ 248 := by
  rw [canvasText, String.length_ofList]
  decide +kernel

end FeltRelay.Schema.Model
