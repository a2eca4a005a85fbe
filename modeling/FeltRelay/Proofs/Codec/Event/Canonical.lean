import FeltRelay.Proofs.Codec.Event.Continued
import FeltRelay.Proofs.Codec.Event.Shape
import FeltRelay.Proofs.Entries
import FeltRelay.Proofs.Schema.Text

/-!
# Event decoding is canonical

Whatever the event decoder accepts is what the event encoder writes for the value that it gives,
event by event, unless an optional stands directly inside another one.
-/

namespace FeltRelay.Codec.Event

open FeltRelay.Schema

variable {m : Model} {modulus : Int}

/-- The events of a value, wherever the value stands. -/
def Encodes (m : Model) (modulus : Int) (t : Ty) (v : Json) (events : List Event) : Prop :=
  ∀ depth, v.depth < depth → ∀ path,
    (encodeTy m modulus (encodeMessage m modulus depth) t path v).result = .ok events

/-- A decoder gives a value for the events of the value only. -/
def Faithful (m : Model) (modulus : Int) (t : Ty) (d : Decoder Json) : Prop :=
  ∀ s v s', d.run s = .ok (v, s') →
    ∃ events : List Event, Consumed s (events.map toJson) s' ∧ Encodes m modulus t v events

theorem Encodes.opens {t : Ty} {v : Json} {events : List Event}
    (h : Encodes m modulus t v events) : Opens events :=
  opens_encodeTy (h _ (Nat.lt_succ_self _) "$")

/-- Nothing is written for null but under an optional. -/
theorem Encodes.ne_null {t : Ty} {v : Json} {events : List Event}
    (h : Encodes m modulus t v events) (ht : t.isOptional = false) : v ≠ .null := by
  rintro rfl
  have henc := h _ (Nat.lt_succ_self _) "$"
  cases t with
  | scalar s =>
    by_cases hs : s.isByteString = true
    · rw [encodeTy_byteString hs] at henc
      cases henc
    · rw [encodeTy_scalar (Bool.eq_false_of_not_eq_true hs)] at henc
      obtain ⟨e, he, -⟩ := map_eq_ok_iff.1 henc
      cases s <;> cases he
  | message name =>
    obtain ⟨_, _, _, _, -, -, hv, -, -⟩ := of_encodeMessage henc
    cases hv
  | enum name =>
    obtain ⟨_, _, _, -, hv, -, -⟩ := of_encodeTy_enum henc
    cases hv
  | optional t => cases ht
  | array t => cases henc

/-! ### Parts of a value -/

/-- Items that are read up to the closing of their array are its events. -/
theorem encodes_of_decodeItems {t : Ty} {d : Decoder Json} (hd : Faithful m modulus t d)
    {fuel : Nat} {s s' : Input} {vs : List Json} (h : (decodeItems d fuel).run s = .ok (vs, s'))
    (hfuel : s.rest.length < fuel) :
    ∃ parts : List (List Event), List.Forall₂ (Encodes m modulus t) vs parts ∧
      Consumed s (parts.flatten.map toJson ++ [(pop .array).toJson]) s' := by
  induction fuel generalizing s vs with
  | zero => exact absurd hfuel (Nat.not_lt_zero _)
  | succ fuel ih =>
    rw [decodeItems] at h
    obtain ⟨closed, s₁, hclosed, hnext⟩ := run_bind_eq_ok_iff.1 h
    obtain ⟨rfl, e, rest, hs, hpop⟩ := of_atPop hclosed
    cases closed with
    | true =>
      rw [hpop rfl] at hs
      cases hnext
      exact ⟨[], .nil, consumed_advance hs⟩
    | false =>
      obtain ⟨v, s₂, hv, hnext⟩ := run_bind_eq_ok_iff.1 hnext
      obtain ⟨vs', s₃, hvs, hnext⟩ := run_bind_eq_ok_iff.1 hnext
      cases run_pure_eq_ok_iff.1 hnext
      obtain ⟨events, hevents, henc⟩ := hd _ _ _ hv
      -- What was read has an event at least, so the events left are fewer than the fuel left.
      obtain ⟨e', events', hcons, -⟩ := henc.opens
      have hless := congrArg List.length hevents.rest
      rw [List.length_append, List.length_map, hcons, List.length_cons] at hless
      obtain ⟨parts, hparts, hrest⟩ := ih hvs (by omega)
      refine ⟨events :: parts, .cons henc hparts, ?_⟩
      rw [List.flatten_cons, List.map_append, List.append_assoc]
      exact hevents.trans hrest

/-- Members that a message's fields were read as, and their events. -/
inductive Members (m : Model) (modulus : Int) :
    List Field → List (String × Json) → List Event → Prop
  | nil : Members m modulus [] [] []
  | cons {f : Field} {v : Json} {es : List Event} {fields : List Field}
      {ms : List (String × Json)} {fs : List Event} (head : Encodes m modulus f.type v es)
      (tail : Members m modulus fields ms fs) :
      Members m modulus (f :: fields) ((f.name, v) :: ms) (key f.name :: es ++ fs)

theorem Members.keys {fields : List Field} {ms : List (String × Json)} {events : List Event}
    (h : Members m modulus fields ms events) : Entries.keys ms = fields.map (·.name) := by
  induction h with
  | nil => rfl
  | cons _ _ ih => rw [Entries.keys_cons, ih, List.map_cons]

theorem members_of_decodeFields {decode : Ty → Decoder Json} {fields : List Field}
    (hd : ∀ f ∈ fields, Faithful m modulus f.type (decode f.type)) {old ms : List (String × Json)}
    {s s' : Input} (h : (decodeFields decode old fields).run s = .ok (ms, s')) :
    ∃ new events, ms = Entries.putAll old new ∧ Members m modulus fields new events ∧
      Consumed s (events.map toJson) s' := by
  induction fields generalizing old s with
  | nil =>
    cases h
    exact ⟨[], [], rfl, .nil, .refl _⟩
  | cons f fields ih =>
    obtain ⟨_, s₁, hkey, h⟩ := run_bind_eq_ok_iff.1 h
    obtain ⟨v, s₂, hv, h⟩ := run_bind_eq_ok_iff.1 h
    obtain ⟨es, hes, henc⟩ := hd f (List.mem_cons_self ..) _ _ _ hv
    obtain ⟨new, fs, rfl, hnew, hfs⟩ := ih (fun g hg => hd g (List.mem_cons_of_mem _ hg)) h
    refine ⟨(f.name, v) :: new, key f.name :: es ++ fs, rfl, .cons henc hnew, ?_⟩
    rw [List.map_append, List.map_cons]
    exact ((consumed_of_expect hkey).trans hes).trans hfs

/-- The fields of an object that holds the members are encoded as their events. -/
theorem encodeFields_of_members {fields : List Field} {new ms : List (String × Json)}
    {events : List Event} (h : Members m modulus fields new events) {depth : Nat}
    (hms : ∀ e ∈ new, ms.lookup e.1 = some e.2 ∧ e.2.depth < depth) (name path : String) :
    (encodeFields (encodeTy m modulus (encodeMessage m modulus depth)) name path ms
      fields).result = .ok events := by
  induction h with
  | nil => rfl
  | cons head _ ih =>
    obtain ⟨hlookup, hdepth⟩ := hms _ (List.mem_cons_self ..)
    rw [encodeFields, hlookup]
    refine Emission.result_followedBy_of_ok ?_ (ih fun e he => hms e (List.mem_cons_of_mem _ he))
    exact Emission.result_followedBy_of_ok (Emission.result_write _) (head _ hdepth _)

/-! ### Values -/

theorem faithful_scalar (hp : 2 ^ 129 < modulus) (ofMessage : String → Decoder Json) (s : Scalar) :
    Faithful m modulus (.scalar s) (decodeTy m modulus ofMessage (.scalar s)) := by
  intro i v i' h
  rw [decodeTy] at h
  by_cases hs : s.isByteString = true
  · rw [if_pos hs] at h
    obtain ⟨bytes, text, rfl, htext, hc⟩ := consumed_of_decodeBytes h
    refine ⟨(packBytes bytes).map fun (n : Nat) => value n, ?_, fun depth _ path => ?_⟩
    · rw [List.map_map]
      exact hc
    · rw [encodeTy_byteString hs, bytesOfJson_of_textOfBytes hs htext]
      rfl
  · have hs' := Bool.eq_false_of_not_eq_true hs
    rw [if_neg hs] at h
    obtain ⟨start, i₁, hget, h⟩ := run_bind_eq_ok_iff.1 h
    cases hget
    obtain ⟨e, i₁, helem, h⟩ := run_bind_eq_ok_iff.1 h
    rw [run_liftM] at h
    obtain ⟨w, hw, hpair⟩ := map_eq_ok_iff.1 h
    cases hpair
    obtain ⟨hc, hlt⟩ := consumed_of_element helem
    refine ⟨[value e], hc, fun depth _ path => ?_⟩
    rw [encodeTy_scalar hs', toElement_ofElement hp hs' (Int.natCast_nonneg e) hlt hw]
    rfl

theorem faithful_enum (hm : m.Distinct) (ofMessage : String → Decoder Json) (name : String) :
    Faithful m modulus (.enum name) (decodeTy m modulus ofMessage (.enum name)) := by
  intro i v i' h
  rw [decodeTy] at h
  obtain ⟨spec, i₁, hlift, h⟩ := run_bind_eq_ok_iff.1 h
  rw [run_liftM] at hlift
  obtain ⟨_, hspec, hpair⟩ := map_eq_ok_iff.1 hlift
  cases hpair
  obtain ⟨_, i₁, hpush, h⟩ := run_bind_eq_ok_iff.1 h
  obtain ⟨start, i₂, hget, h⟩ := run_bind_eq_ok_iff.1 h
  cases hget
  obtain ⟨n, i₂, helem, h⟩ := run_bind_eq_ok_iff.1 h
  split at h
  · rename_i variant hvariant
    obtain ⟨_, i₃, hpop, h⟩ := run_bind_eq_ok_iff.1 h
    cases run_pure_eq_ok_iff.1 h
    have hspec' := Model.enum_eq_ok hspec
    have hnodup := hm.variants _ (Model.mem_of_enum? hspec')
    have hi := Enumeration.indexOf?_of_getElem? hnodup hvariant
    have hc := (consumed_of_expect hpush).trans (consumed_of_element helem).1
    refine ⟨[push .enum, value n, pop .enum], hc.trans (consumed_of_expect hpop), ?_⟩
    intro depth _ path
    simp only [encodeTy, hspec, hi]
    rfl
  · cases h

theorem faithful_optional {ofMessage : String → Decoder Json} {t : Ty}
    (honce : t.isOptional = false) (ht : Faithful m modulus t (decodeTy m modulus ofMessage t)) :
    Faithful m modulus (.optional t) (decodeTy m modulus ofMessage (.optional t)) := by
  intro s v s' h
  rw [decodeTy] at h
  obtain ⟨_, s₁, hpush, h⟩ := run_bind_eq_ok_iff.1 h
  obtain ⟨closed, s₂, hclosed, hnext⟩ := run_bind_eq_ok_iff.1 h
  obtain ⟨rfl, e, rest, hs, hpop⟩ := of_atPop hclosed
  have hopen := consumed_of_expect hpush
  cases closed with
  | true =>
    rw [hpop rfl] at hs
    cases hnext
    exact ⟨[push .optional, pop .optional], hopen.trans (consumed_advance hs), fun _ _ _ => rfl⟩
  | false =>
    obtain ⟨w, s₃, hw, hnext⟩ := run_bind_eq_ok_iff.1 hnext
    obtain ⟨_, s₄, hclose, hnext⟩ := run_bind_eq_ok_iff.1 hnext
    cases run_pure_eq_ok_iff.1 hnext
    obtain ⟨events, hevents, henc⟩ := ht _ _ _ hw
    refine ⟨push .optional :: events ++ [pop .optional], ?_, fun depth hdepth path => ?_⟩
    · rw [List.map_append, List.map_cons]
      exact (hopen.trans hevents).trans (consumed_of_expect hclose)
    -- A value that is null would be written as an absent one.
    · rw [encodeTy_optional (henc.ne_null honce), result_within, henc depth hdepth path]
      rfl

theorem faithful_array {ofMessage : String → Decoder Json} {t : Ty}
    (ht : Faithful m modulus t (decodeTy m modulus ofMessage t)) :
    Faithful m modulus (.array t) (decodeTy m modulus ofMessage (.array t)) := by
  intro s v s' h
  rw [decodeTy] at h
  obtain ⟨_, s₁, hpush, h⟩ := run_bind_eq_ok_iff.1 h
  obtain ⟨start, s₂, hget, h⟩ := run_bind_eq_ok_iff.1 h
  cases hget
  obtain ⟨vs, s₂, hvs, h⟩ := run_bind_eq_ok_iff.1 h
  cases run_pure_eq_ok_iff.1 h
  obtain ⟨parts, hparts, hrest⟩ := encodes_of_decodeItems ht hvs (Nat.lt_succ_self _)
  refine ⟨push .array :: parts.flatten ++ [pop .array], ?_, fun depth hdepth path => ?_⟩
  · rw [List.map_append, List.map_cons]
    exact (consumed_of_expect hpush).trans hrest
  · have hshallow : ∀ v ∈ vs, v.depth < depth :=
      fun v hv => Nat.lt_trans (Json.depth_lt_of_mem hv) hdepth
    have hitems := (List.forall₂_and_left vs parts).2 ⟨hshallow, hparts⟩
    have hwritten := result_encodeItems (hitems.imp fun v es h path => h.2 depth h.1 path)
    rw [encodeTy, result_within, hwritten]
    rfl

theorem faithful_decodeTy (hp : 2 ^ 129 < modulus) (hm : m.Distinct)
    {ofMessage : String → Decoder Json}
    (hmsg : ∀ name, Faithful m modulus (.message name) (ofMessage name)) {t : Ty}
    (ht : t.SinglyOptional) : Faithful m modulus t (decodeTy m modulus ofMessage t) := by
  induction t with
  | scalar s => exact faithful_scalar hp ofMessage s
  | message name => exact hmsg name
  | enum name => exact faithful_enum hm ofMessage name
  | optional t ih => exact faithful_optional ht.1 (ih ht.2)
  | array t ih => exact faithful_array (ih ht)

theorem faithful_decodeMessage (hp : 2 ^ 129 < modulus) (hm : m.Distinct) (ho : m.SinglyOptional)
    (depth : Nat) (name : String) :
    Faithful m modulus (.message name) (decodeMessage m modulus depth name) := by
  induction depth generalizing name with
  | zero =>
    intro s v s' h
    cases h
  | succ depth ih =>
    intro s v s' h
    rw [decodeMessage] at h
    obtain ⟨spec, i₁, hlift, h⟩ := run_bind_eq_ok_iff.1 h
    rw [run_liftM] at hlift
    obtain ⟨_, hspec, hpair⟩ := map_eq_ok_iff.1 hlift
    cases hpair
    obtain ⟨_, s₁, hpush, h⟩ := run_bind_eq_ok_iff.1 h
    obtain ⟨ms, s₂, hms, h⟩ := run_bind_eq_ok_iff.1 h
    obtain ⟨_, s₃, hpop, h⟩ := run_bind_eq_ok_iff.1 h
    cases run_pure_eq_ok_iff.1 h
    have hspec' := Model.message_eq_ok hspec
    have hmem := Model.mem_of_message? hspec'
    have hfields : ∀ f ∈ spec.fields, Faithful m modulus f.type
        (decodeTy m modulus (decodeMessage m modulus depth) f.type) :=
      fun f hf => faithful_decodeTy hp hm ih (ho spec hmem f hf)
    obtain ⟨new, events, hput, hnew, hc⟩ := members_of_decodeFields hfields hms
    -- No field is named twice, so the object holds what was read field by field.
    have hnodup : (Entries.keys new).Nodup := by
      rw [hnew.keys]
      exact hm.fields spec hmem
    have hms : ms = new := hput.trans (Entries.ofPairs_of_nodup hnodup)
    subst hms
    refine ⟨push .struct :: events ++ [pop .struct], ?_, fun depth₁ hdepth₁ path => ?_⟩
    · rw [List.map_append, List.map_cons]
      exact ((consumed_of_expect hpush).trans hc).trans (consumed_of_expect hpop)
    -- The depths of the two sides are unrelated: the encoder's need only exceed that of the value.
    · obtain ⟨depth₂, rfl⟩ : ∃ k, depth₁ = k + 1 := ⟨depth₁ - 1, by omega⟩
      have hknown : unknownNames spec ms = [] := by
        refine Flat.unknownNames_eq_nil fun k hk => ?_
        rwa [hnew.keys] at hk
      have hshallow : ∀ e ∈ ms, ms.lookup e.1 = some e.2 ∧ e.2.depth < depth₂ := by
        intro e he
        have hlookup := Entries.lookup_of_mem hnodup he
        have := Json.depth_lt_of_lookup hlookup
        exact ⟨hlookup, by omega⟩
      rw [encodeTy, encodeMessage_obj hspec' hknown, result_within,
        encodeFields_of_members hnew hshallow]
      rfl

/-! ### Whole sequences -/

theorem faithful_read (hp : 2 ^ 129 < modulus) (hm : m.Distinct) (ho : m.SinglyOptional) {t : Ty}
    (ht : t.SinglyOptional) : Faithful m modulus t (read m modulus t) := by
  intro s v s' h
  obtain ⟨s₀, s₁, hget, hrun⟩ := run_bind_eq_ok_iff.1 h
  cases hget
  exact faithful_decodeTy hp hm (faithful_decodeMessage hp hm ho _) ht _ _ _ hrun

/-- Events that are read whole leave nothing behind. -/
theorem run_of_decode {t : Ty} {items : List Json} {v : Json}
    (h : decode m modulus t items = .ok v) :
    ∃ s', (read m modulus t).run ⟨items, 0⟩ = .ok (v, s') ∧ s'.position = items.length := by
  obtain ⟨⟨v', s'⟩, hrun, h⟩ := bind_eq_ok_iff.1 h
  rw [Input.from, List.drop_zero] at hrun
  dsimp only at h
  split at h
  · cases h
  · rename_i hall
    cases h
    exact ⟨s', hrun, not_not.1 hall⟩

/-- Events that are read whole are those of the value, and one more is too many. -/
theorem encode_of_decode (hp : 2 ^ 129 < modulus) (hm : m.Distinct) (ho : m.SinglyOptional) {t : Ty}
    (ht : t.SinglyOptional) {items : List Json} {v : Json}
    (h : decode m modulus t items = .ok v) :
    (read m modulus t).run ⟨items, 0⟩ = .ok (v, ⟨[], items.length⟩) ∧
      ∃ events, encode m modulus t v = .ok events ∧ events.map toJson = items := by
  obtain ⟨⟨rest, position⟩, hrun, hall⟩ := run_of_decode h
  obtain ⟨events, hc, henc⟩ := faithful_read hp hm ho ht _ _ _ hrun
  have hpos := hc.position
  have hrest := hc.rest
  dsimp only at hall hpos hrest
  have hlen := congrArg List.length hrest
  rw [List.length_append] at hlen
  have hnil : rest = [] := List.length_eq_zero_iff.1 (by omega)
  subst hnil hall
  rw [List.append_nil] at hrest
  exact ⟨hrun, events, henc _ (Nat.lt_succ_self _) "$", hrest.symm⟩

/-- The event decoder accepts what the encoder writes and nothing else: events that are read as a
value are the events of the value, one by one. So they have the shape of the type, which is balanced
and has the declared keys in declared order, and nothing may follow them. -/
theorem decode_image {text : String} (hm : Model.ofText text = .ok m) {t : Ty} (ht : t.Declared m)
    (honce : t.SinglyOptional) (hp : 2 ^ 129 < modulus) {items : List Json} {v : Json}
    (h : decode m modulus t items = .ok v) :
    (∃ events, encode m modulus t v = .ok events ∧ events.map toJson = items ∧
      Shaped m t events ∧ Balanced events) ∧
    ∀ more, more ≠ [] → ∃ f, decode m modulus t (items ++ more) = .error f ∧
      f.kind = .trailingElements := by
  have hsound := Model.sound_of_ofText hm
  obtain ⟨hrun, events, henc, hitems⟩ := encode_of_decode hp (Model.distinct_of_ofText hm)
    (Model.singlyOptional_of_ofText hm) honce h
  have hshape := shaped_encode henc
  refine ⟨⟨events, henc, hitems, hshape, hshape.balanced⟩, fun more hmore => ?_⟩
  have hcont : Continues more 1 (read m modulus t) (read m modulus t) ⟨items, 0⟩ :=
    continues_read hsound.closed ht _
  exact ⟨_, decode_of_left (hcont.run_ok hrun).2 hmore, rfl⟩

/-- The events of a pixel without parts. -/
theorem decode_image_pixel :
    ∃ events, encode Model.canvas starkPrime (.message "Pixel")
        (.obj [("x", .int (-2)), ("note", "0xab"), ("parts", .arr []), ("hue", "Red")]) =
        .ok events ∧ Balanced events ∧ events.map toJson =
        [.strings ["push", "struct"],
          .strings ["key", "x"], .arr ["value", .int (starkPrime - 2)],
          .strings ["key", "note"], .strings ["push", "optional"], .arr ["value", .int 0],
          .arr ["value", .int 171], .arr ["value", .int 1], .strings ["pop", "optional"],
          .strings ["key", "parts"], .strings ["push", "array"], .strings ["pop", "array"],
          .strings ["key", "hue"], .strings ["push", "enum"], .arr ["value", .int 0],
          .strings ["pop", "enum"], .strings ["pop", "struct"]] := by
  have hdecode : decode Model.canvas starkPrime (.message "Pixel")
      [.strings ["push", "struct"],
        .strings ["key", "x"], .arr ["value", .int (starkPrime - 2)],
        .strings ["key", "note"], .strings ["push", "optional"], .arr ["value", .int 0],
        .arr ["value", .int 171], .arr ["value", .int 1], .strings ["pop", "optional"],
        .strings ["key", "parts"], .strings ["push", "array"], .strings ["pop", "array"],
        .strings ["key", "hue"], .strings ["push", "enum"], .arr ["value", .int 0],
        .strings ["pop", "enum"], .strings ["pop", "struct"]] =
      .ok (.obj [("x", .int (-2)), ("note", "0xab"), ("parts", .arr []), ("hue", "Red")]) := rfl
  obtain ⟨⟨events, henc, hitems, -, hbalanced⟩, -⟩ := decode_image Model.ofText_canvasText
    (by decide : (Ty.message "Pixel").Declared Model.canvas) (by decide)
    (by decide : (2 : Int) ^ 129 < starkPrime) hdecode
  exact ⟨events, henc, hbalanced, hitems⟩

end FeltRelay.Codec.Event
