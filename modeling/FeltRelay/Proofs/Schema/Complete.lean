import FeltRelay.Proofs.Schema.Definitions.Shown
import FeltRelay.Proofs.Schema.Text

/-!
# What a model leaves out

A definitions text is read with some statements skipped. If each of them is balanced and shows no
declaration, the model has all the messages, enumerations and fields that the text shows; otherwise
it does not, or a statement has taken brackets that are not its own (`skipped_iff_of_ofText`).
-/

namespace FeltRelay.Schema

/-- What a message declares. -/
def Message.items (spec : Message) : List Definitions.Item :=
  .message spec.name :: spec.fieldNames.map (.field spec.name)

namespace Model

open Definitions

variable {m : Model}

/-- What a model declares, services aside. -/
def items (m : Model) : List Item :=
  m.messages.flatMap Message.items ++ m.enums.map (.enum ·.name)

theorem items_of_messageOf {names : Names} {d : MessageDecl} {spec : Message}
    (h : MessageOf names d spec) : d.items = spec.items := by
  have hfields : d.fields.map (·.name) = spec.fields.map (·.name) := by
    refine map_eq_of_forall₂ (h.fields.imp fun e f hf => ?_)
    obtain ⟨t, -, rfl⟩ := hf
    rfl
  unfold MessageDecl.items Message.items Message.fieldNames
  rw [h.name, ← hfields, List.map_map]
  rfl

theorem items_of_ofDeclarations {d : Declarations} (h : ofDeclarations d = .ok m) :
    m.items = d.items := by
  obtain ⟨names, -, hm⟩ := madeOf_of_ofDeclarations h
  have hmessages : d.messages.map MessageDecl.items = m.messages.map Message.items :=
    map_eq_of_forall₂ (hm.messages.imp fun _ _ h => items_of_messageOf h)
  have henums : d.enums.map EnumDecl.item = m.enums.map (.enum ·.name) :=
    map_eq_of_forall₂ (hm.enums.imp fun _ _ h => congrArg Item.enum h.name.symm)
  unfold items Declarations.items
  rw [List.flatMap_def, List.flatMap_def, hmessages, henums]

/-- A skipped statement takes nothing that is not its own: its brackets are balanced, and it shows
no declaration. -/
structure Harmless (s : Skipped) : Prop where
  balanced : Balanced s.tokens
  empty : s.items = []

/-- What is skipped is balanced up to its semicolon if no bracket is closed that was not opened in
it. In a text that is accepted, each skipped statement is balanced and the model has exactly the
messages, enumerations and fields that the text shows if and only if each is harmless. -/
theorem skipped_iff_of_ofText {text : String} (h : ofText text = .ok m) :
    (∀ c c', skipStatement.run c = .ok ((), c') → ∃ stmt semicolon,
      c.rest = stmt ++ semicolon :: c'.rest ∧ semicolon.text = ";" ∧
      (Balanced stmt ↔ (unwind [] stmt).isSome)) ∧
    ∃ ts d, tokenize text = .ok ts ∧ Declarations.ofTokens ts = .ok d ∧
      (∃ skips, IsFile {} ts d skips) ∧
      ∀ skips, IsFile {} ts d skips → ((∀ s ∈ skips, Harmless s) ↔
        (∀ s ∈ skips, Balanced s.tokens) ∧ ((Scan.inside []).shown ts).Perm m.items) := by
  refine ⟨fun c c' hrun => balanced_iff_of_skipStatement hrun, ?_⟩
  obtain ⟨d, hd, hm⟩ := bind_eq_ok_iff.1 h
  obtain ⟨ts, hts, hd⟩ := bind_eq_ok_iff.1 hd
  refine ⟨ts, d, hts, hd, exists_isFile_of_ofTokens hd, fun skips hfile => ?_⟩
  rw [items_of_ofDeclarations hm]
  have hshown : (∀ s ∈ skips, Balanced s.tokens) →
      ((Scan.inside []).shown ts).Perm (d.items ++ skips.flatMap Skipped.items) :=
    fun hb => hfile.shown_perm (clean_of_tokenize hts) hb
  constructor
  · intro hharmless
    have hb : ∀ s ∈ skips, Balanced s.tokens := fun s hs => (hharmless s hs).balanced
    have hnone : skips.flatMap Skipped.items = [] :=
      List.flatMap_eq_nil_iff.2 fun s hs => (hharmless s hs).empty
    have hperm := hshown hb
    rw [hnone, List.append_nil] at hperm
    exact ⟨hb, hperm⟩
  · rintro ⟨hb, hperm⟩
    -- The same items are as many, so nothing is left for the skipped statements.
    have hlength := (hperm.symm.trans (hshown hb)).length_eq
    rw [List.length_append] at hlength
    have hnone : skips.flatMap Skipped.items = [] := List.length_eq_zero_iff.1 (by omega)
    exact fun s hs => ⟨hb s hs, List.flatMap_eq_nil_iff.1 hnone s hs⟩

theorem skipped_canvas : ofText canvasText = .ok canvas ∧
    ∃ ts d, tokenize canvasText = .ok ts ∧ Declarations.ofTokens ts = .ok d ∧
      (∃ skips, IsFile {} ts d skips) ∧
      ∀ skips, IsFile {} ts d skips → ((∀ s ∈ skips, Harmless s) ↔
        (∀ s ∈ skips, Balanced s.tokens) ∧ ((Scan.inside []).shown ts).Perm canvas.items) :=
  ⟨ofText_canvasText, (skipped_iff_of_ofText ofText_canvasText).2⟩

/-- An option without its semicolon, before the end of the message that it stands in. -/
def unendedText : String :=
  "message A \x7b u8 a = 1; option x \x7d message B \x7b u8 b = 1; \x7d"

/-- The tokens of `unendedText` up to the word `option`. -/
def unendedHead : List Token :=
  [⟨.name, "message", ⟨1, 1⟩⟩, ⟨.name, "A", ⟨1, 9⟩⟩, ⟨.mark, "\x7b", ⟨1, 11⟩⟩,
    ⟨.name, "u8", ⟨1, 13⟩⟩, ⟨.name, "a", ⟨1, 16⟩⟩, ⟨.mark, "=", ⟨1, 18⟩⟩,
    ⟨.number, "1", ⟨1, 20⟩⟩, ⟨.mark, ";", ⟨1, 21⟩⟩, ⟨.name, "option", ⟨1, 23⟩⟩]

/-- What is skipped behind it, up to a semicolon. -/
def unendedStatement : List Token :=
  [⟨.name, "x", ⟨1, 30⟩⟩, ⟨.mark, "\x7d", ⟨1, 32⟩⟩, ⟨.name, "message", ⟨1, 34⟩⟩,
    ⟨.name, "B", ⟨1, 42⟩⟩, ⟨.mark, "\x7b", ⟨1, 44⟩⟩, ⟨.name, "u8", ⟨1, 46⟩⟩,
    ⟨.name, "b", ⟨1, 49⟩⟩, ⟨.mark, "=", ⟨1, 51⟩⟩, ⟨.number, "1", ⟨1, 53⟩⟩]

/-- The rest of the tokens. -/
def unendedTail : List Token := [⟨.mark, ";", ⟨1, 54⟩⟩, ⟨.mark, "\x7d", ⟨1, 56⟩⟩]

/-- The model of `unendedText`. -/
def unended : Model where
  package := none
  messages := [⟨"A", [⟨"a", .scalar (.unsigned .w8)⟩]⟩]
  enums := []
  services := []

/-- The skipped statement takes the closing brace of its message, and the message behind it, which
the text shows and the model does not have. -/
theorem skipped_unended : ofText unendedText = .ok unended ∧
    tokenize unendedText = .ok (unendedHead ++ unendedStatement ++ unendedTail) ∧
    skipStatement.run ⟨unendedStatement ++ unendedTail, ⟨1, 56⟩⟩ =
      .ok ((), ⟨unendedTail.tail, ⟨1, 56⟩⟩) ∧
    ¬Balanced unendedStatement ∧
    (Scan.inside []).shown (unendedHead ++ unendedStatement ++ unendedTail) =
      [.message "A", .field "A" "a", .message "B", .field "B" "b"] ∧
    unended.items = [.message "A", .field "A" "a"] := by
  refine ⟨?_, ?_, rfl, by decide, by decide +kernel, rfl⟩
  · rw [ofText, Declarations.ofText, tokenize, unendedText, String.toList_ofList]
    exact eq_ok_of_toOption (by decide +kernel)
  · rw [tokenize, unendedText, String.toList_ofList]
    exact eq_ok_of_toOption (by decide +kernel)

end Model

end FeltRelay.Schema
