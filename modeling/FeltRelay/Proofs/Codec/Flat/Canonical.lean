import FeltRelay.Proofs.Codec.Flat.Element
import FeltRelay.Proofs.Codec.Flat.Encode
import FeltRelay.Proofs.Entries
import FeltRelay.Proofs.Schema.Text

/-!
# Flat decoding is canonical

Whatever the flat decoder accepts is the encoding of the value that it gives. So no value has two
sequences, unless an optional stands directly inside another one: there an absent value may be
absent at either.
-/

namespace FeltRelay.Codec.Flat

open FeltRelay.Schema FeltRelay.Text

variable {m : Model} {modulus : Int}

/-- The encoding of a value, wherever the value stands. -/
def Encodes (m : Model) (modulus : Int) (t : Ty) (v : Json) (xs : List Int) : Prop :=
  ∀ depth, v.depth < depth → ∀ path,
    (encodeTy m modulus (encodeMessage m modulus depth) t path v).result = .ok xs

/-- A decoder gives a value for the encoding of the value only. -/
def Faithful (m : Model) (modulus : Int) (t : Ty) (d : Decoder Json) : Prop :=
  ∀ s v s', d.run s = .ok (v, s') →
    ∃ xs : List Int, Consumed s (xs.map .int) s' ∧ Encodes m modulus t v xs

/-! ### Parts of a value -/

theorem encodes_of_readTimes {t : Ty} {d : Decoder Json} (hd : Faithful m modulus t d) {n : Nat}
    {s s' : Input} {vs : List Json} (h : (readTimes d n).run s = .ok (vs, s')) :
    vs.length = n ∧ ∃ parts : List (List Int), List.Forall₂ (Encodes m modulus t) vs parts ∧
      Consumed s (parts.flatten.map .int) s' := by
  induction n generalizing s vs with
  | zero =>
    cases h
    exact ⟨rfl, [], .nil, .refl _⟩
  | succ n ih =>
    obtain ⟨v, s₁, hv, h⟩ := run_bind_eq_ok_iff.1 h
    obtain ⟨vs', s₂, hvs, h⟩ := run_bind_eq_ok_iff.1 h
    cases run_pure_eq_ok_iff.1 h
    obtain ⟨xs, hxs, henc⟩ := hd _ _ _ hv
    obtain ⟨hlen, parts, hparts, hrest⟩ := ih hvs
    refine ⟨by rw [List.length_cons, hlen], xs :: parts, .cons henc hparts, ?_⟩
    rw [List.flatten_cons, List.map_append]
    exact hxs.trans hrest

/-- Members that a message's fields were read as, and their elements. -/
inductive Members (m : Model) (modulus : Int) :
    List Field → List (String × Json) → List Int → Prop
  | nil : Members m modulus [] [] []
  | cons {f : Field} {v : Json} {xs : List Int} {fields : List Field} {ms : List (String × Json)}
      {ys : List Int} (head : Encodes m modulus f.type v xs) (tail : Members m modulus fields ms ys) :
      Members m modulus (f :: fields) ((f.name, v) :: ms) (xs ++ ys)

theorem Members.keys {fields : List Field} {ms : List (String × Json)} {xs : List Int}
    (h : Members m modulus fields ms xs) : Entries.keys ms = fields.map (·.name) := by
  induction h with
  | nil => rfl
  | cons _ _ ih => rw [Entries.keys_cons, ih, List.map_cons]

theorem members_of_decodeFields {decode : Ty → Decoder Json} {fields : List Field}
    (hd : ∀ f ∈ fields, Faithful m modulus f.type (decode f.type)) {old ms : List (String × Json)}
    {s s' : Input} (h : (decodeFields decode old fields).run s = .ok (ms, s')) :
    ∃ new xs, ms = Entries.putAll old new ∧ Members m modulus fields new xs ∧
      Consumed s (xs.map .int) s' := by
  induction fields generalizing old s with
  | nil =>
    cases h
    exact ⟨[], [], rfl, .nil, .refl _⟩
  | cons f fields ih =>
    obtain ⟨v, s₁, hv, h⟩ := run_bind_eq_ok_iff.1 h
    obtain ⟨xs, hxs, henc⟩ := hd f (List.mem_cons_self ..) _ _ _ hv
    obtain ⟨new, ys, rfl, hnew, hys⟩ := ih (fun g hg => hd g (List.mem_cons_of_mem _ hg)) h
    refine ⟨(f.name, v) :: new, xs ++ ys, rfl, .cons henc hnew, ?_⟩
    rw [List.map_append]
    exact hxs.trans hys

/-- The fields of an object that holds the members are encoded as their elements. -/
theorem encodeFields_of_members {fields : List Field} {new ms : List (String × Json)}
    {xs : List Int} (h : Members m modulus fields new xs) {depth : Nat}
    (hms : ∀ e ∈ new, ms.lookup e.1 = some e.2 ∧ e.2.depth < depth) (name path : String) :
    (encodeFields (encodeTy m modulus (encodeMessage m modulus depth)) name path ms
      fields).result = .ok xs := by
  induction h with
  | nil => rfl
  | cons head _ ih =>
    obtain ⟨hlookup, hdepth⟩ := hms _ (List.mem_cons_self ..)
    rw [encodeFields, hlookup]
    refine Emission.result_followedBy_of_ok (head _ hdepth _) ?_
    exact ih fun e he => hms e (List.mem_cons_of_mem _ he)

/-- An object of a message's fields is encoded as their elements, if no two have one name. -/
theorem encodes_obj {name : String} {spec : Message} (hspec : m.message? name = some spec)
    (hnodup : spec.fieldNames.Nodup) {ms : List (String × Json)} {xs : List Int}
    (hms : Members m modulus spec.fields ms xs) :
    Encodes m modulus (.message name) (.obj ms) xs := by
  intro depth hdepth path
  obtain ⟨depth, rfl⟩ : ∃ k, depth = k + 1 := ⟨depth - 1, by omega⟩
  have hkeys : (Entries.keys ms).Nodup := by
    rw [hms.keys]
    exact hnodup
  have hknown : unknownNames spec ms = [] := by
    refine unknownNames_eq_nil fun k hk => ?_
    rwa [hms.keys] at hk
  rw [encodeTy, encodeMessage_obj hspec hknown]
  refine encodeFields_of_members hms (fun e he => ?_) name path
  have hlookup := Entries.lookup_of_mem hkeys he
  have := Json.depth_lt_of_lookup hlookup
  exact ⟨hlookup, by omega⟩

/-! ### Values -/

theorem faithful_scalar (hp : 2 ^ 129 < modulus) (ofMessage : String → Decoder Json) (s : Scalar) :
    Faithful m modulus (.scalar s) (decodeTy m modulus ofMessage (.scalar s)) := by
  intro i v i' h
  rw [decodeTy] at h
  by_cases hs : s.isByteString = true
  · rw [if_pos hs] at h
    obtain ⟨bytes, text, rfl, htext, hc⟩ := consumed_of_decodeBytes h
    refine ⟨(packBytes bytes).map Int.ofNat, ?_, fun depth _ path => ?_⟩
    · rw [List.map_map]
      exact hc
    · rw [encodeTy_byteString hs, bytesOfJson_of_textOfBytes hs htext]
      rfl
  · have hs' := Bool.eq_false_of_not_eq_true hs
    rw [if_neg hs] at h
    obtain ⟨start, i₁, hget, h⟩ := run_bind_eq_ok_iff.1 h
    cases hget
    obtain ⟨e, i₁, helem, h⟩ := run_bind_eq_ok_iff.1 h
    rw [run_liftM] at h
    obtain ⟨w, hw, hpair⟩ := map_eq_ok_iff.1 h
    cases hpair
    obtain ⟨hc, hlt⟩ := consumed_of_takeElement helem
    refine ⟨[(e : Int)], hc, fun depth _ path => ?_⟩
    rw [encodeTy_scalar hs', toElement_ofElement hp hs' (Int.natCast_nonneg e) hlt hw]
    rfl

theorem faithful_enum (hm : m.Distinct) (ofMessage : String → Decoder Json) (name : String) :
    Faithful m modulus (.enum name) (decodeTy m modulus ofMessage (.enum name)) := by
  intro i v i' h
  rw [decodeTy] at h
  obtain ⟨spec, i₁, hlift, h⟩ := run_bind_eq_ok_iff.1 h
  rw [run_liftM] at hlift
  obtain ⟨_, hspec, hpair⟩ := map_eq_ok_iff.1 hlift
  cases hpair
  obtain ⟨start, i₁, hget, h⟩ := run_bind_eq_ok_iff.1 h
  cases hget
  obtain ⟨n, i₁, helem, h⟩ := run_bind_eq_ok_iff.1 h
  obtain ⟨hc, -⟩ := consumed_of_takeElement helem
  split at h
  · rename_i variant hvariant
    cases run_pure_eq_ok_iff.1 h
    have hspec' := Model.enum_eq_ok hspec
    have hnodup := hm.variants _ (Model.mem_of_enum? hspec')
    refine ⟨[(n : Int)], hc, fun depth _ path => ?_⟩
    exact encodeTy_enum hspec' (Enumeration.indexOf?_of_getElem? hnodup hvariant) path
  · cases h

/-- The steps of reading an array. -/
theorem of_decodeTy_array {ofMessage : String → Decoder Json} {t : Ty} {s s' : Input} {v : Json}
    (h : (decodeTy m modulus ofMessage (.array t)).run s = .ok (v, s')) :
    ∃ n vs s₁, v = .arr vs ∧ (takeElement modulus "array length").run s = .ok (n, s₁) ∧
      (readTimes (decodeTy m modulus ofMessage t) n).run s₁ = .ok (vs, s') := by
  rw [decodeTy] at h
  obtain ⟨start, i₁, hget, h⟩ := run_bind_eq_ok_iff.1 h
  cases hget
  obtain ⟨n, s₁, hn, h⟩ := run_bind_eq_ok_iff.1 h
  split at h
  · cases h
  dsimp only at h
  obtain ⟨width, i₁, hwidth, h⟩ := run_bind_eq_ok_iff.1 h
  rw [run_liftM] at hwidth
  obtain ⟨_, -, hpair⟩ := map_eq_ok_iff.1 hwidth
  cases hpair
  obtain ⟨i₂, i₃, hget, h⟩ := run_bind_eq_ok_iff.1 h
  cases hget
  split at h
  · cases h
  obtain ⟨vs, i₄, hvs, h⟩ := run_bind_eq_ok_iff.1 h
  cases run_pure_eq_ok_iff.1 h
  exact ⟨n, vs, _, rfl, hn, hvs⟩

/-- A value of a type that is not optional is there. -/
theorem ne_null_of_decodeTy {ofMessage : String → Decoder Json}
    (hmsg : ∀ name s v s', (ofMessage name).run s = .ok (v, s') → v ≠ .null) {t : Ty}
    (ht : t.isOptional = false) {s s' : Input} {v : Json}
    (h : (decodeTy m modulus ofMessage t).run s = .ok (v, s')) : v ≠ .null := by
  cases t with
  | scalar k =>
    rw [decodeTy] at h
    by_cases hk : k.isByteString = true
    · rw [if_pos hk] at h
      obtain ⟨_, _, rfl, -, -⟩ := consumed_of_decodeBytes h
      exact Json.noConfusion
    · rw [if_neg hk] at h
      obtain ⟨start, i₁, -, h⟩ := run_bind_eq_ok_iff.1 h
      obtain ⟨e, i₁, -, h⟩ := run_bind_eq_ok_iff.1 h
      rw [run_liftM] at h
      obtain ⟨w, hw, hpair⟩ := map_eq_ok_iff.1 h
      cases hpair
      exact ofElement_ne_null hw
  | message name => exact hmsg name _ _ _ h
  | enum name =>
    rw [decodeTy] at h
    obtain ⟨spec, i₁, -, h⟩ := run_bind_eq_ok_iff.1 h
    obtain ⟨start, i₁, -, h⟩ := run_bind_eq_ok_iff.1 h
    obtain ⟨n, i₁, -, h⟩ := run_bind_eq_ok_iff.1 h
    split at h
    · cases run_pure_eq_ok_iff.1 h
      exact Json.noConfusion
    · cases h
  | optional t => cases ht
  | array t =>
    obtain ⟨_, _, _, rfl, -, -⟩ := of_decodeTy_array h
    exact Json.noConfusion

theorem faithful_optional {ofMessage : String → Decoder Json} {t : Ty}
    (hnull : ∀ s v s', (decodeTy m modulus ofMessage t).run s = .ok (v, s') → v ≠ .null)
    (ht : Faithful m modulus t (decodeTy m modulus ofMessage t)) :
    Faithful m modulus (.optional t) (decodeTy m modulus ofMessage (.optional t)) := by
  intro s v s' h
  rw [decodeTy] at h
  obtain ⟨start, i₁, hget, h⟩ := run_bind_eq_ok_iff.1 h
  cases hget
  obtain ⟨flag, s₁, hflag, h⟩ := run_bind_eq_ok_iff.1 h
  obtain ⟨hc, -⟩ := consumed_of_takeElement hflag
  split at h
  · rename_i hzero
    cases run_pure_eq_ok_iff.1 h
    rw [hzero] at hc
    exact ⟨[0], hc, fun _ _ _ => rfl⟩
  · split at h
    · rename_i hone
      obtain ⟨xs, hxs, henc⟩ := ht _ _ _ h
      rw [hone] at hc
      refine ⟨1 :: xs, hc.trans hxs, fun depth hdepth path => ?_⟩
      -- A value that is null would be written as an absent one.
      rw [encodeTy_optional (hnull _ _ _ h)]
      exact Emission.result_followedBy_of_ok (Emission.result_write _) (henc _ hdepth _)
    · cases h

theorem faithful_array {ofMessage : String → Decoder Json} {t : Ty}
    (ht : Faithful m modulus t (decodeTy m modulus ofMessage t)) :
    Faithful m modulus (.array t) (decodeTy m modulus ofMessage (.array t)) := by
  intro s v s' h
  obtain ⟨n, vs, s₁, rfl, hn, hvs⟩ := of_decodeTy_array h
  obtain ⟨hc, -⟩ := consumed_of_takeElement hn
  obtain ⟨hlen, parts, hparts, hrest⟩ := encodes_of_readTimes ht hvs
  refine ⟨(n : Int) :: parts.flatten, hc.trans hrest, fun depth hdepth path => ?_⟩
  rw [encodeTy, hlen]
  have hshallow : ∀ v ∈ vs, v.depth < depth :=
    fun v hv => Nat.lt_trans (Json.depth_lt_of_mem hv) hdepth
  have hitems := (List.forall₂_and_left vs parts).2 ⟨hshallow, hparts⟩
  refine Emission.result_followedBy_of_ok (Emission.result_write _) ?_
  exact result_encodeItems (hitems.imp fun v xs h path => h.2 depth h.1 path) path 0

/-- A value of a type is read from its own encoding, if messages are. -/
theorem faithful_decodeTy (hp : 2 ^ 129 < modulus) (hm : m.Distinct)
    {ofMessage : String → Decoder Json}
    (hmsg : ∀ name, Faithful m modulus (.message name) (ofMessage name))
    (hnull : ∀ name s v s', (ofMessage name).run s = .ok (v, s') → v ≠ .null) {t : Ty}
    (ht : t.SinglyOptional) : Faithful m modulus t (decodeTy m modulus ofMessage t) := by
  induction t with
  | scalar s => exact faithful_scalar hp ofMessage s
  | message name => exact hmsg name
  | enum name => exact faithful_enum hm ofMessage name
  | optional t ih =>
    exact faithful_optional (fun _ _ _ h => ne_null_of_decodeTy hnull ht.1 h) (ih ht.2)
  | array t ih => exact faithful_array (ih ht)

/-- A message is an object of its fields. -/
theorem of_decodeMessage {depth : Nat} {name : String} {s s' : Input} {v : Json}
    (h : (decodeMessage m modulus depth name).run s = .ok (v, s')) :
    ∃ depth' spec ms, depth = depth' + 1 ∧ m.message? name = some spec ∧ v = .obj ms ∧
      (decodeFields (decodeTy m modulus (decodeMessage m modulus depth')) [] spec.fields).run s =
        .ok (ms, s') := by
  cases depth with
  | zero => cases h
  | succ depth =>
    rw [decodeMessage] at h
    obtain ⟨spec, i₁, hlift, h⟩ := run_bind_eq_ok_iff.1 h
    rw [run_liftM] at hlift
    obtain ⟨_, hspec, hpair⟩ := map_eq_ok_iff.1 hlift
    cases hpair
    obtain ⟨ms, s₁, hms, h⟩ := run_bind_eq_ok_iff.1 h
    cases run_pure_eq_ok_iff.1 h
    exact ⟨depth, spec, ms, rfl, Model.message_eq_ok hspec, rfl, hms⟩

theorem ne_null_of_decodeMessage (depth : Nat) (name : String) (s : Input) (v : Json) (s' : Input)
    (h : (decodeMessage m modulus depth name).run s = .ok (v, s')) : v ≠ .null := by
  obtain ⟨-, -, ms, -, -, rfl, -⟩ := of_decodeMessage h
  exact Json.noConfusion

/-- A message is read from its own encoding. -/
theorem faithful_decodeMessage (hp : 2 ^ 129 < modulus) (hm : m.Distinct) (ho : m.SinglyOptional)
    (depth : Nat) (name : String) :
    Faithful m modulus (.message name) (decodeMessage m modulus depth name) := by
  induction depth generalizing name with
  | zero =>
    intro s v s' h
    cases h
  | succ depth ih =>
    intro s v s' h
    obtain ⟨depth', spec, ms, hdepth', hspec, rfl, hms⟩ := of_decodeMessage h
    cases hdepth'
    have hmem := Model.mem_of_message? hspec
    have hfields : ∀ f ∈ spec.fields, Faithful m modulus f.type
        (decodeTy m modulus (decodeMessage m modulus depth) f.type) :=
      fun f hf => faithful_decodeTy hp hm ih (ne_null_of_decodeMessage depth) (ho spec hmem f hf)
    obtain ⟨new, xs, hput, hnew, hc⟩ := members_of_decodeFields hfields hms
    -- No field is named twice, so the object holds what was read field by field.
    have hnodup : (Entries.keys new).Nodup := by
      rw [hnew.keys]
      exact hm.fields spec hmem
    have hms : ms = new := hput.trans (Entries.ofPairs_of_nodup hnodup)
    subst hms
    exact ⟨xs, hc, encodes_obj hspec (hm.fields spec hmem) hnew⟩

/-! ### Whole sequences -/

theorem faithful_read (hp : 2 ^ 129 < modulus) (hm : m.Distinct) (ho : m.SinglyOptional) {t : Ty}
    (ht : t.SinglyOptional) : Faithful m modulus t (read m modulus t) := by
  intro s v s' h
  obtain ⟨s₀, s₁, hget, hrun⟩ := run_bind_eq_ok_iff.1 h
  cases hget
  exact faithful_decodeTy hp hm (faithful_decodeMessage hp hm ho _) (ne_null_of_decodeMessage _) ht
    _ _ _ hrun

/-- What was read from a place is what the value is encoded as. -/
theorem encode_of_decode (hp : 2 ^ 129 < modulus) (hm : m.Distinct) (ho : m.SinglyOptional) {t : Ty}
    (ht : t.SinglyOptional) {elements : List Json} {position : Nat}
    (hpos : position ≤ elements.length) {v : Json} {count : Nat}
    (h : decode m modulus t elements position = .ok (v, count)) :
    position + count ≤ elements.length ∧ ∃ xs, encode m modulus t v = .ok xs ∧
      xs.map .int = (elements.drop position).take count := by
  obtain ⟨⟨v', s'⟩, hrun, hret⟩ := bind_eq_ok_iff.1 h
  cases hret
  obtain ⟨xs, hc, henc⟩ := faithful_read hp hm ho ht _ _ _ hrun
  have hrest : elements.drop position = xs.map .int ++ s'.rest := hc.rest
  have hcount : s'.position - position = (xs.map Json.int).length := by
    rw [hc.position]
    exact Nat.add_sub_cancel_left ..
  have hlen := congrArg List.length hrest
  rw [List.length_drop, List.length_append, ← hcount] at hlen
  refine ⟨by omega, xs, henc _ (Nat.lt_succ_self _) "$", ?_⟩
  rw [hrest, hcount, List.take_left]

/-- A sequence that is read whole is the encoding of its value. -/
theorem encode_of_decodeExact (hp : 2 ^ 129 < modulus) (hm : m.Distinct) (ho : m.SinglyOptional)
    {t : Ty} (ht : t.SinglyOptional) {elements : List Json} {v : Json}
    (h : decodeExact m modulus t elements = .ok v) :
    ∃ xs, encode m modulus t v = .ok xs ∧ xs.map .int = elements := by
  obtain ⟨⟨v', count⟩, hdecode, h⟩ := bind_eq_ok_iff.1 h
  dsimp only at h
  split at h
  · cases h
  · rename_i hall
    cases h
    obtain ⟨-, xs, henc, hxs⟩ := encode_of_decode hp hm ho ht (Nat.zero_le _) hdecode
    refine ⟨xs, henc, ?_⟩
    rw [hxs, List.drop_zero, not_not.1 hall, List.take_length]

/-- Whatever is read from a place of a sequence is the encoding of the value that it is read as, so
no two sequences are read whole as one value. -/
theorem decode_canonical {text : String} (hm : Model.ofText text = .ok m) {t : Ty}
    (ht : t.SinglyOptional) (hp : 2 ^ 129 < modulus) :
    (∀ (elements : List Json) (position : Nat) (v : Json) (count : Nat),
      position ≤ elements.length → decode m modulus t elements position = .ok (v, count) →
        position + count ≤ elements.length ∧ ∃ xs, encode m modulus t v = .ok xs ∧
          xs.map .int = (elements.drop position).take count) ∧
      ∀ (s₁ s₂ : List Json) (v : Json), decodeExact m modulus t s₁ = .ok v →
        decodeExact m modulus t s₂ = .ok v → s₁ = s₂ := by
  have hdistinct := Model.distinct_of_ofText hm
  have honce := Model.singlyOptional_of_ofText hm
  refine ⟨fun elements position v count hpos h => ?_, fun s₁ s₂ v h₁ h₂ => ?_⟩
  · exact encode_of_decode hp hdistinct honce ht hpos h
  · obtain ⟨xs₁, henc₁, rfl⟩ := encode_of_decodeExact hp hdistinct honce ht h₁
    obtain ⟨xs₂, henc₂, rfl⟩ := encode_of_decodeExact hp hdistinct honce ht h₂
    rw [henc₁] at henc₂
    cases henc₂
    rfl

/-- A pixel behind a text that is not read. -/
theorem decode_canonical_pixel :
    ∃ xs, encode Model.canvas starkPrime (.message "Pixel")
        (.obj [("x", .int (-2)), ("note", "0xab"), ("parts", .arr []), ("hue", "Red")]) = .ok xs ∧
      xs.map Json.int =
        [.int (starkPrime - 2), .int 1, .int 0, .int 171, .int 1, .int 0, .int 0] := by
  have hdecode : decode Model.canvas starkPrime (.message "Pixel")
      [.str "skipped", .int (starkPrime - 2), .int 1, .int 0, .int 171, .int 1, .int 0, .int 0] 1 =
      .ok (.obj [("x", .int (-2)), ("note", "0xab"), ("parts", .arr []), ("hue", "Red")], 7) := rfl
  have h := decode_canonical Model.ofText_canvasText (t := .message "Pixel") (by decide)
    (by decide : (2 : Int) ^ 129 < starkPrime)
  exact (h.1 _ 1 _ 7 (by decide) hdecode).2

end FeltRelay.Codec.Flat
