import FeltRelay.Proofs.Codec.Event.Recursion

/-!
# Where an event is at fault

Events that are not a value fail as a field of a message as they do alone, and the offset grows by
the number of events in front of them (`decode_field`), except for one that lies within the layout of
a byte string: that one stays what it is (`decode_wideText`).
-/

namespace FeltRelay.Codec.Event

open FeltRelay.Schema

variable {m : Model} {modulus : Int}

/-- A decoder keeps in step with itself further on. -/
theorem inStep_read (hm : m.Sound) {t : Ty} (ht : t.Declared m) (k : Nat) (s : Input) :
    InStep (Relocated k) k 1 (read m modulus t) (read m modulus t) s := by
  obtain ⟨height, -, hheight⟩ := hm.exists_height
  have hgrounded : Grounded (onCalls (step m modulus)) _ _ _ _ := grounded_step hm.closed hheight
  refine hgrounded.induction (P := fun c => InStep (Relocated k) k 1 (perform m modulus c.1)
    (perform m modulus c.1) c.2) (fun c hc ih => ?_) (c := (.value t, s)) ht
  have hstep : InStep (Relocated k) k 1 (step m modulus (perform m modulus) c.1)
      (step m modulus (perform m modulus) c.1) c.2 :=
    inStep_step hc fun task' s' hbelow => ih (task', s') hbelow
  exact hstep.of_run_eq (run_perform hm hc c.2) (run_perform hm hc (c.2.shifted k))

/-- A message up to the value of one of its fields. -/
def opening (m : Model) (modulus : Int) (before : List Field) (f : Field) :
    Decoder (List (String × Json)) := do
  expect "push" Container.struct.name
  let ms ← decodeFields (read m modulus) [] before
  expect "key" f.name
  return ms

theorem reaches_of_opening (hm : m.Sound) {before : List Field} {f : Field}
    (hbefore : ∀ g ∈ before, g.type.Declared m) {s s' : Input} {ms : List (String × Json)}
    (h : (opening m modulus before f).run s = .ok (ms, s')) : Reaches s 1 s' := by
  have hstep : InStep (Relocated 0) 0 1 (opening m modulus before f)
      (opening m modulus before f) s := by
    refine .bind_first (inStep_expect _ _ s) fun _ s₁ _ => ?_
    refine .bind_rest (inStep_decodeFields (fun g hg s' _ => ?_) []) fun ms s₂ _ => ?_
    · exact inStep_read hm (hbefore g hg) 0 s'
    · exact .bind_rest (inStep_expect _ _ s₂) fun _ s₃ _ => .pure _
  exact (hstep.run_ok h).1

theorem decodeFields_append (decode : Ty → Decoder Json) (ms : List (String × Json))
    (xs ys : List Field) : decodeFields decode ms (xs ++ ys) =
      decodeFields decode ms xs >>= fun ms' => decodeFields decode ms' ys := by
  induction xs generalizing ms with
  | nil => rfl
  | cons f xs ih =>
    rw [List.cons_append, decodeFields, decodeFields, bind_assoc]
    refine bind_congr fun _ => ?_
    rw [bind_assoc]
    exact bind_congr fun v => ih _

/-- A message fails as the first of its fields that fails. -/
theorem run_message_of_field (hm : m.Sound) {name : String} {spec : Message}
    (hspec : m.message? name = some spec) {before after : List Field} {f : Field}
    (hfields : spec.fields = before ++ f :: after) {s s' : Input} {ms : List (String × Json)}
    (hopening : (opening m modulus before f).run s = .ok (ms, s')) {fault : Failure}
    (hfault : (read m modulus f.type).run s' = .error fault) :
    (read m modulus (.message name)).run s = .error fault := by
  have hdecl : (Task.value (.message name)).type.Declared m := by
    rw [Task.type, Ty.Declared, hspec]
    rfl
  have hstep : (read m modulus (.message name)).run s =
      (step m modulus (perform m modulus) (.value (.message name))).run s := run_perform hm hdecl s
  have hlift : (liftM (m.message name) : Decoder Message).run s = .ok (spec, s) := by
    rw [run_liftM, Model.message_of_message? hspec]
    rfl
  obtain ⟨_, s₁, hpush, hopening⟩ := run_bind_eq_ok_iff.1 hopening
  obtain ⟨ms', s₂, hbefore, hopening⟩ := run_bind_eq_ok_iff.1 hopening
  obtain ⟨_, s₃, hkey, hret⟩ := run_bind_eq_ok_iff.1 hopening
  cases run_pure_eq_ok_iff.1 hret
  have hall : (decodeFields (read m modulus) [] spec.fields).run s₁ = .error fault := by
    rw [hfields, decodeFields_append]
    refine run_bind_eq_error_iff.2 (.inr ⟨_, s₂, hbefore, ?_⟩)
    refine run_bind_eq_error_iff.2 (.inr ⟨_, _, hkey, ?_⟩)
    exact run_bind_eq_error_iff.2 (.inl hfault)
  refine hstep.trans (run_bind_eq_error_iff.2 (.inr ⟨spec, s, hlift, ?_⟩))
  refine run_bind_eq_error_iff.2 (.inr ⟨_, s₁, hpush, ?_⟩)
  exact run_bind_eq_error_iff.2 (.inl hall)

theorem run_read_of_decode {t : Ty} {items : List Json} {fault : Failure}
    (h : decode m modulus t items = .error fault) (hkind : fault.kind ≠ .trailingElements) :
    (read m modulus t).run ⟨items, 0⟩ = .error fault := by
  rcases bind_eq_error_iff.1 h with hrun | ⟨⟨v, s⟩, -, hleft⟩
  · exact hrun
  · dsimp only at hleft
    split at hleft <;> cases hleft
    exact absurd rfl hkind

theorem decode_of_run_read {t : Ty} {items : List Json} {fault : Failure}
    (h : (read m modulus t).run ⟨items, 0⟩ = .error fault) :
    decode m modulus t items = .error fault :=
  bind_eq_error_iff.2 (.inl h)

theorem Relocated.moved_place {k : Nat} {f f' : Failure} (h : Relocated k f f')
    (hf : ¬LayoutFault f) {offset : Int} (hplace : f.place = .element offset) :
    f'.place = .element (offset + k) := by
  rw [h.moved hf, Failure.moved, hplace]

theorem Relocated.kind_text {k : Nat} {f f' : Failure} (h : Relocated k f f') :
    f'.kind = f.kind ∧ f'.text = f.text := by
  by_cases hf : LayoutFault f
  · rw [h.layout hf]
    exact ⟨rfl, rfl⟩
  · obtain ⟨offset, hplace⟩ := h.element
    rw [h.moved hf, Failure.moved, hplace]
    exact ⟨rfl, rfl⟩

/-- Events that fail as a value fail in the same way as the next field of a message, at the same
event of the longer sequence, except for a fault in the layout of a byte string. -/
theorem decode_field {text : String} (hm : m.ReadFrom text) (modulus : Int) {name : String}
    {spec : Message} (hspec : m.message? name = some spec) {before after : List Field} {f : Field}
    (hfields : spec.fields = before ++ f :: after) {front events : List Json}
    {ms : List (String × Json)} {s : Input}
    (hfront : (opening m modulus before f).run ⟨front ++ events, 0⟩ = .ok (ms, s))
    (hs : s.rest = events) {fault : Failure} (hfault : decode m modulus f.type events = .error fault)
    (hkind : fault.kind ≠ .trailingElements) :
    ∃ fault' offset, decode m modulus (.message name) (front ++ events) = .error fault' ∧
      fault'.kind = fault.kind ∧ fault'.text = fault.text ∧ fault.place = .element offset ∧
      (fault'.place = .element (offset + front.length) ↔ ¬LayoutFault fault) ∧
      (LayoutFault fault → fault' = fault) := by
  have hsound := hm.sound
  have hdeclared := hsound.closed spec (Model.mem_of_message? hspec)
  rw [hfields] at hdeclared
  have hbefore : ∀ g ∈ before, g.type.Declared m :=
    fun g hg => hdeclared g (List.mem_append_left _ hg)
  have hf : f.type.Declared m :=
    hdeclared f (List.mem_append_right _ (List.mem_cons_self ..))
  -- The opening takes the events in front, of which there is one at least.
  have hreach := reaches_of_opening hsound hbefore hfront
  have hlength : events.length + 1 ≤ (front ++ events).length := hs ▸ hreach.length
  have hposition : s.position + events.length = 0 + (front ++ events).length :=
    hs ▸ hreach.position
  rw [List.length_append] at hlength hposition
  have hshift : Input.shifted ⟨events, 0⟩ front.length = s := by
    have hplace : s.position = 0 + front.length := by omega
    rw [Input.shifted, ← hs, ← hplace]
  have hstep : InStep (Relocated front.length) front.length 1 (read m modulus f.type)
      (read m modulus f.type) ⟨events, 0⟩ := inStep_read hsound hf front.length ⟨events, 0⟩
  obtain ⟨fault', hfault', hrelocated⟩ := hstep.run_error (run_read_of_decode hfault hkind)
  rw [hshift] at hfault'
  obtain ⟨offset, hplace⟩ := hrelocated.element
  obtain ⟨hkind', htext'⟩ := hrelocated.kind_text
  have hmessage := run_message_of_field hsound hspec hfields hfront hfault'
  refine ⟨fault', offset, decode_of_run_read hmessage, hkind', htext', hplace, ?_,
    hrelocated.layout⟩
  constructor
  · intro hmoved hlayout
    rw [hrelocated.layout hlayout, hplace, Failure.Place.element.injEq] at hmoved
    omega
  · intro hno
    exact hrelocated.moved_place hno hplace

/-- A small definitions text: a message of a number and a text. -/
def labelText : String := "message Label \x7b u8 size = 1; string text = 2; \x7d"

def sizeField : Field := ⟨"size", .scalar (.unsigned .w8)⟩

def textField : Field := ⟨"text", .scalar .text⟩

def label : Model where
  package := none
  messages := [⟨"Label", [sizeField, textField]⟩]
  enums := []
  services := []

theorem ofText_labelText : Model.ofText labelText = .ok label := by
  rw [Model.ofText, Definitions.Declarations.ofText, Definitions.tokenize, labelText,
    String.toList_ofList]
  exact eq_ok_of_toOption (by decide +kernel)

/-- The events of a label up to its text. -/
def labelFront : List Json :=
  [.arr ["push", "struct"], .arr ["key", "size"], .arr ["value", .int 7], .arr ["key", "text"]]

/-- A text of two elements ends early, alone and behind the events of a label. -/
theorem decode_field_label : ∃ fault, decode label starkPrime (.message "Label")
    (labelFront ++ [.arr ["value", .int 0], .arr ["value", .int 0]]) = .error fault ∧
      fault.kind = .truncated ∧ fault.place = .element 6 := by
  have hspec : label.message? "Label" = some ⟨"Label", [sizeField, textField]⟩ := rfl
  have hfields : [sizeField, textField] = [sizeField] ++ textField :: [] := rfl
  have hfront : (opening label starkPrime [sizeField] textField).run
      ⟨labelFront ++ [.arr ["value", .int 0], .arr ["value", .int 0]], 0⟩ =
      .ok ([("size", .int 7)], ⟨[.arr ["value", .int 0], .arr ["value", .int 0]], 4⟩) := rfl
  have hfault : decode label starkPrime textField.type
      [.arr ["value", .int 0], .arr ["value", .int 0]] =
      .error (.truncated 2 "event stream ended early") := rfl
  obtain ⟨fault', offset, hdecode, hkind, -, hplace, hmoved, -⟩ :=
    decode_field (.definitions ofText_labelText) starkPrime hspec hfields hfront rfl hfault
      (by decide)
  cases hplace
  exact ⟨fault', hdecode, hkind, hmoved.2 fun h => by cases h.1⟩

/-- The events of a text whose one byte does not fit into a byte. -/
def wideText : List Json :=
  [.arr ["value", .int 0], .arr ["value", .int 256], .arr ["value", .int 1]]

/-- The text is refused at its second event. It is so as well behind the four events of a label,
where that event is the sixth. -/
theorem decode_wideText :
    (opening label starkPrime [sizeField] textField).run ⟨labelFront ++ wideText, 0⟩ =
        .ok ([("size", .int 7)], ⟨wideText, labelFront.length⟩) ∧
      ∃ fault, decode label starkPrime textField.type wideText = .error fault ∧
        decode label starkPrime (.message "Label") (labelFront ++ wideText) = .error fault ∧
        fault.kind = .elementOutOfRange ∧ fault.place = .element 1 :=
  ⟨rfl, _, rfl, rfl, rfl, rfl⟩

end FeltRelay.Codec.Event
