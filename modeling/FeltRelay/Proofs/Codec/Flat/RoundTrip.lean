import FeltRelay.Proofs.Codec.Flat.Depth
import FeltRelay.Proofs.Codec.Flat.Element
import FeltRelay.Proofs.Codec.Flat.Range
import FeltRelay.Proofs.Codec.Flat.Width
import FeltRelay.Proofs.Schema.Text

/-!
# The flat round trip

What the flat encoder writes is read back as the value in its normal form, wherever the elements
stand and whatever follows them, if they lie in the field. The induction is on the depth of the
value.
-/

namespace FeltRelay.Codec.Flat

open FeltRelay.Schema FeltRelay.Text

/-- What the codec asks of a model: types are declared, messages have a height over those that they
contain, and the indices of variants are elements of any large enough field. -/
structure Bounded (m : Model) (height : String → Nat) : Prop where
  closed : m.Closed
  descends : ∀ a b, m.Contains a b → height b < height a
  bounded : ∀ a, height a ≤ m.messages.length
  variants : ∀ spec ∈ m.enums, spec.variants.length ≤ 2 ^ 248

variable {m : Model} {modulus : Int} {height : String → Nat}

/-! ### Types -/

/-- What the decoder of a depth has to do with the messages that the encoder of a depth writes. -/
def ReadsMessages (m : Model) (modulus : Int) (height : String → Nat) (deep depth : Nat) : Prop :=
  ∀ {name path v xs}, (m.message? name).isSome → Fits m (.message name) v →
    (encodeMessage m modulus deep name path v).result = .ok xs → Within modulus xs →
    need m height (.message name) xs.length ≤ depth →
    Reads (decodeMessage m modulus depth name) (xs.map .int) (normalMessage m deep name v)

/-- A value of a type is read from its encoding. -/
def ReadsTy (m : Model) (modulus : Int) (height : String → Nat) (deep depth : Nat) (t : Ty) : Prop :=
  ∀ {path v xs}, Fits m t v →
    (encodeTy m modulus (encodeMessage m modulus deep) t path v).result = .ok xs →
    Within modulus xs → need m height t xs.length ≤ depth →
    Reads (decodeTy m modulus (decodeMessage m modulus depth) t) (xs.map .int)
      (normalTy (normalMessage m deep) t v)

variable {deep depth : Nat}

theorem readsTy_scalar (hp : 2 ^ 129 < modulus) (s : Scalar) :
    ReadsTy m modulus height deep depth (.scalar s) := by
  intro path v xs _ h hin _
  rw [decodeTy, normalTy]
  by_cases hs : s.isByteString = true
  · rw [encodeTy_byteString hs] at h
    obtain ⟨bytes, hbytes, rfl⟩ := map_eq_ok_iff.1 h
    have helem : ∀ n ∈ packBytes bytes, (n : Int) < modulus :=
      fun n hn => (hin n (List.mem_map_of_mem hn)).2
    obtain ⟨text, htext, hnormal⟩ := textOfBytes_of_bytesOfJson hs hbytes
    rw [if_pos hs, hnormal, List.map_map]
    exact reads_decodeBytes helem htext
  · have hs' := Bool.eq_false_of_not_eq_true hs
    rw [encodeTy_scalar hs'] at h
    obtain ⟨e, he, rfl⟩ := map_eq_ok_iff.1 h
    rw [if_neg hs]
    refine Reads.get_bind fun start _ => ?_
    obtain ⟨h0, hlt, hback⟩ := ofElement_toElement hp hs' he start.position
    obtain ⟨n, rfl⟩ := Int.eq_ofNat_of_zero_le h0
    exact (reads_takeElement hlt s.name).bind (Reads.liftM hback)

theorem readsTy_enum (name : String) : ReadsTy m modulus height deep depth (.enum name) := by
  intro path v xs _ h hin _
  obtain ⟨spec, variant, i, hspec, rfl, hi, rfl⟩ := of_encodeTy_enum h
  have hvariant := Enumeration.getElem?_of_indexOf? hi
  have hlt : (i : Int) < modulus := (within_singleton.1 hin).2
  rw [decodeTy, normalTy]
  refine Reads.liftM_bind (Model.enum_of_enum? hspec) (Reads.get_bind fun start _ => ?_)
  refine (reads_takeElement hlt _).bind_nil ?_
  simp only [hvariant]
  exact Reads.pure _

/-- A presence element of zero is read as an absent value. -/
theorem reads_absent (hp : 0 < modulus) (ofMessage : String → Decoder Json) (t : Ty) :
    Reads (decodeTy m modulus ofMessage (.optional t)) [item 0] .null := by
  rw [decodeTy]
  refine Reads.get_bind fun start _ => ?_
  have hflag := reads_takeElement (n := 0) hp "presence flag"
  refine hflag.bind_nil ?_
  rw [if_pos rfl]
  exact Reads.pure _

theorem readsTy_optional (hm : Bounded m height) {t : Ty}
    (ht : ReadsTy m modulus height deep depth t) :
    ReadsTy m modulus height deep depth (.optional t) := by
  intro path v xs hfits h hin hneed
  by_cases hv : v = .null
  · subst hv
    cases h
    exact reads_absent (within_singleton.1 hin).2 _ t
  · rw [encodeTy_optional hv] at h
    obtain ⟨ys, zs, hys, hzs, rfl⟩ := Emission.result_followedBy_eq_ok_iff.1 h
    cases Emission.eq_of_result_write hys
    have hinner : Fits m t v := by
      cases hfits with
      | absent => exact absurd rfl hv
      | optional h => exact h
    have hnormal : normalTy (normalMessage m deep) (.optional t) v =
        normalTy (normalMessage m deep) t v := by
      cases v with
      | null => exact absurd rfl hv
      | _ => rfl
    obtain ⟨hone, hrest⟩ := within_append.1 hin
    have hflag := reads_takeElement (n := 1) (within_singleton.1 hone).2 "presence flag"
    rw [decodeTy, hnormal, List.map_append]
    refine Reads.get_bind fun start _ => hflag.bind ?_
    rw [if_neg Nat.one_ne_zero, if_pos rfl]
    exact ht hinner hzs hrest (need_of_lt hm.bounded (by simp) hneed)

theorem reads_items {t : Ty} (ht : ReadsTy m modulus height deep depth t) {vs : List Json}
    {parts : List (List Int)}
    (h : List.Forall₂ (fun v part => ∃ path,
      (encodeTy m modulus (encodeMessage m modulus deep) t path v).result = .ok part) vs parts)
    (hfits : ∀ v ∈ vs, Fits m t v) (hin : ∀ part ∈ parts, Within modulus part)
    (hneed : ∀ part ∈ parts, need m height t part.length ≤ depth) :
    List.Forall₂ (Reads (decodeTy m modulus (decodeMessage m modulus depth) t))
      (parts.map (List.map .int)) (vs.map (normalTy (normalMessage m deep) t)) := by
  induction h with
  | nil => exact .nil
  | @cons v part vs parts hhead _ ih =>
    obtain ⟨path, hhead⟩ := hhead
    rw [List.map_cons, List.map_cons]
    refine .cons ?_ ?_
    · have hself := List.mem_cons_self (a := part) (l := parts)
      exact ht (hfits _ (List.mem_cons_self ..)) hhead (hin _ hself) (hneed _ hself)
    · exact ih (fun v hv => hfits v (List.mem_cons_of_mem _ hv))
        (fun part hpart => hin part (List.mem_cons_of_mem _ hpart))
        fun part hpart => hneed part (List.mem_cons_of_mem _ hpart)

theorem readsTy_array (hm : Bounded m height) {t : Ty} (hdecl : t.Declared m)
    (ht : ReadsTy m modulus height deep depth t) :
    ReadsTy m modulus height deep depth (.array t) := by
  intro path v xs hfits h hin hneed
  cases hfits with
  | array hlen hitems =>
  rename_i vs
  obtain ⟨ys, zs, hys, hzs, rfl⟩ := Emission.result_followedBy_eq_ok_iff.1 h
  cases Emission.eq_of_result_write hys
  obtain ⟨parts, hparts, rfl⟩ := of_result_encodeItems hzs
  obtain ⟨w, hw⟩ := exists_minWidth hm.closed hdecl
  obtain ⟨hlength, hrest⟩ := within_append.1 hin
  have hread := reads_items ht hparts hitems (within_flatten.1 hrest) fun part hpart => by
    have hle := (List.sublist_flatten_of_mem hpart).length_le
    refine need_of_lt hm.bounded ?_ hneed
    rw [List.length_append, List.length_singleton]
    omega
  have hn : ((vs.length : Nat) : Int) < modulus := (within_singleton.1 hlength).2
  have hmax : ¬maxArrayLength < vs.length := by
    have : maxArrayLength = 2 ^ 32 - 1 := rfl
    omega
  rw [decodeTy, normalTy, List.map_append]
  refine Reads.get_bind fun start _ => (reads_takeElement hn "array length").bind ?_
  rw [if_neg hmax]
  refine Reads.liftM_bind hw (Reads.get_bind fun s hs => ?_)
  -- No item is narrower than the width of its type, so the elements at hand suffice.
  have hroom : ¬s.rest.length < vs.length * w := by
    have hle := hs.length_le
    have hflat := length_mul_minWidth_le hw hparts
    rw [List.length_map] at hle
    omega
  have hcount : vs.length = (vs.map (normalTy (normalMessage m deep) t)).length :=
    (List.length_map _).symm
  dsimp only
  rw [if_neg hroom, List.map_flatten, hcount]
  exact (Reads.readTimes hread).bind_nil (Reads.pure _)

theorem readsTy (hp : 2 ^ 129 < modulus) (hm : Bounded m height)
    (hmsg : ReadsMessages m modulus height deep depth) {t : Ty} (hdecl : t.Declared m) :
    ReadsTy m modulus height deep depth t := by
  induction t with
  | scalar s => exact readsTy_scalar hp s
  | message name =>
    intro path v xs hfits h hin hneed
    exact hmsg hdecl hfits h hin hneed
  | enum name => exact readsTy_enum name
  | optional t ih => exact readsTy_optional hm (ih hdecl)
  | array t ih => exact readsTy_array (t := t) hm hdecl (ih hdecl)

/-! ### Messages -/

/-- The fields of a message are read from what was written for them. -/
theorem reads_decodeFields {name path : String} {ms : List (String × Json)} {fields : List Field}
    (ht : ∀ f ∈ fields, ReadsTy m modulus height deep depth f.type)
    (hfits : ∀ f ∈ fields, ∀ v, ms.lookup f.name = some v → Fits m f.type v) {xs : List Int}
    (h : (encodeFields (encodeTy m modulus (encodeMessage m modulus deep)) name path ms
      fields).result = .ok xs) (hin : Within modulus xs)
    (hneed : ∀ f ∈ fields, ∀ k ≤ xs.length, need m height f.type k ≤ depth)
    (old : List (String × Json)) :
    Reads (decodeFields (decodeTy m modulus (decodeMessage m modulus depth)) old fields)
      (xs.map .int)
      (Entries.putAll old (fields.map fun f => (f.name,
        ((ms.lookup f.name).map (normalTy (normalMessage m deep) f.type)).getD .null))) := by
  induction fields generalizing xs old with
  | nil =>
    cases h
    exact Reads.pure _
  | cons f fields ih =>
    obtain ⟨ys, zs, rfl, hrest, hhere⟩ := of_encodeFields_cons h
    obtain ⟨hfirst, hothers⟩ := within_append.1 hin
    rw [List.length_append] at hneed
    have htail := ih (fun g hg => ht g (List.mem_cons_of_mem _ hg))
      (fun g hg => hfits g (List.mem_cons_of_mem _ hg)) hrest hothers
      (fun g hg k hk => hneed g (List.mem_cons_of_mem _ hg) k (by omega))
    have hself := List.mem_cons_self (a := f) (l := fields)
    rw [List.map_append]
    refine Reads.bind ?_ (htail _)
    rcases hhere with ⟨v, path', hv, hys⟩ | ⟨hnone, hopt, rfl⟩
    · dsimp only
      rw [hv]
      exact ht f hself (hfits f hself v hv) hys hfirst (hneed f hself _ (by omega))
    · dsimp only
      rw [hnone]
      cases hf : f.type with
      | optional t => exact reads_absent (within_singleton.1 hfirst).2 _ t
      | _ =>
        rw [hf] at hopt
        cases hopt

/-- A message is read from its encoding, however deep the value. -/
theorem readsMessages (hp : 2 ^ 129 < modulus) (hm : Bounded m height) (deep depth : Nat) :
    ReadsMessages m modulus height deep depth := by
  -- The encoder's depth falls with each message; the decoder's is kept up by what is still needed.
  induction deep generalizing depth with
  | zero =>
    intro name path v xs _ _ h
    cases h
  | succ deep ih =>
    intro name path v xs hdecl hfits h hin hneed
    obtain ⟨_, spec, ms, hdeep, hspec, rfl, hfields⟩ := of_encodeMessage h
    cases hdeep
    obtain ⟨depth, rfl⟩ := need_message_pos hneed
    have hmem := Model.mem_of_message? hspec
    have hread := reads_decodeFields
      (fun f hf => readsTy hp hm (ih depth) (hm.closed spec hmem f hf))
      (fun f hf v hv => by
        cases hfits with
        | message hsub => exact hsub spec hspec f hf v hv)
      hfields hin (fun f hf k hk => need_field hm.descends hspec hf hk hneed) []
    rw [decodeMessage]
    refine Reads.liftM_bind (Model.message_of_message? hspec) ?_
    have hnormal : normalMessage m (deep + 1) name (.obj ms) =
        .obj (normalFields (normalTy (normalMessage m deep)) ms spec.fields) := by
      simp only [normalMessage, hspec]
    rw [hnormal]
    exact hread.bind_nil (Reads.pure _)

/-! ### Whole sequences -/

/-- A value is read from an encoding in the field, with the depth that the decoder allows itself. -/
theorem reads_of_within (hp : 2 ^ 129 < modulus) (hm : Bounded m height) {t : Ty}
    (ht : t.Declared m) {v : Json} (hfits : Fits m t v) {xs : List Int}
    (h : encode m modulus t v = .ok xs) (hin : Within modulus xs) :
    Reads (read m modulus t) (xs.map .int) (normalised m t v) := by
  refine Reads.get_bind fun s hs => ?_
  have hle : xs.length ≤ s.rest.length := by
    have := hs.length_le
    rwa [List.length_map] at this
  -- The decoder allows a depth for the elements at hand, of which the encoding is a part.
  have hdepth := need_le_nestingBound hm.bounded t hle
  exact readsTy hp hm (readsMessages hp hm _ _) ht hfits h hin hdepth

/-- In a field that holds every word, each encoding is read. -/
theorem reads_read (hp : 2 ^ 248 < modulus) (hm : Bounded m height) {t : Ty} (ht : t.Declared m)
    {v : Json} (hfits : Fits m t v) {xs : List Int} (h : encode m modulus t v = .ok xs) :
    Reads (read m modulus t) (xs.map .int) (normalised m t v) := by
  have hsplit : 2 ^ 129 < modulus := by omega
  have hin := within_encode hsplit hm.variants hfits h
  rw [ceiling_eq hp.le] at hin
  exact reads_of_within hsplit hm ht hfits h hin

theorem decode_of_reads {t : Ty} {v : Json} {items : List Json}
    (h : Reads (read m modulus t) items v) (pre suf : List Json) :
    decode m modulus t (pre ++ items ++ suf) pre.length = .ok (v, items.length) := by
  have hstart : Input.from (pre ++ items ++ suf) pre.length = ⟨items ++ suf, pre.length⟩ := by
    rw [Input.from, List.append_assoc, List.drop_left]
  rw [decode, hstart, h suf pre.length, ok_bind]
  simp

theorem decodeExact_of_reads {t : Ty} {v : Json} {items : List Json}
    (h : Reads (read m modulus t) items v) : decodeExact m modulus t items = .ok v := by
  have hdecode := decode_of_reads h [] []
  rw [List.nil_append, List.append_nil, List.length_nil] at hdecode
  rw [decodeExact, hdecode, ok_bind]
  simp

/-! ### Models that were read -/

/-- A model of a text that is not beyond all measure is fit for the codec. -/
theorem exists_bounded {text : String} (hm : m.ReadFrom text) (hsize : text.length < 2 ^ 248) :
    ∃ height, Bounded m height := by
  obtain ⟨height, hdescends, hbounded⟩ := hm.sound.exists_height
  refine ⟨height, hm.sound.closed, hdescends, hbounded, fun spec hspec => ?_⟩
  have := hm.length_variants_le hspec
  omega

/-- A pixel with one part, in whatever spelling: members out of order, an absent note, an integer in
a text, capital digits. -/
def picture : Json :=
  .obj [("hue", "Blue"), ("parts", .arr [.obj [("x", "-2"), ("note", "0xAB"), ("parts", .arr []),
    ("hue", "Red")]]), ("x", .int 7)]

/-- `picture` as it reads back. -/
def plainPicture : Json :=
  .obj [("x", .int 7), ("note", .null), ("parts", .arr [.obj [("x", .int (-2)), ("note", "0xab"),
    ("parts", .arr []), ("hue", "Red")]]), ("hue", "Blue")]

theorem fits_pixel {ms : List (String × Json)}
    (hnote : ∀ v, ms.lookup "note" = some v → Fits Model.canvas (.optional (.scalar .bytes)) v)
    (hparts : ∀ v, ms.lookup "parts" = some v →
      Fits Model.canvas (.array (.message "Pixel")) v) :
    Fits Model.canvas (.message "Pixel") (.obj ms) := by
  refine .message fun spec hspec f hf v hv => ?_
  cases hspec
  simp only [List.mem_cons, List.not_mem_nil, or_false] at hf
  rcases hf with rfl | rfl | rfl | rfl
  · exact .scalar fun _ h => absurd h (by decide)
  · exact hnote v hv
  · exact hparts v hv
  · exact .enum

theorem fits_picture : Fits Model.canvas (.message "Pixel") picture := by
  have hbytes : bytesOfJson .bytes "$" "0xAB" = .ok [171] := eq_ok_of_toOption (by decide +kernel)
  have hpart : Fits Model.canvas (.message "Pixel")
      (.obj [("x", "-2"), ("note", "0xAB"), ("parts", .arr []), ("hue", "Red")]) := by
    refine fits_pixel (fun v hv => ?_) fun v hv => ?_
    · cases hv
      refine .optional (.scalar fun bytes _ h => ?_)
      rw [hbytes] at h
      cases h
      decide
    · cases hv
      exact .array (by decide) fun v hv => absurd hv List.not_mem_nil
  refine fits_pixel (fun v hv => ?_) fun v hv => ?_
  · cases hv
  · cases hv
    refine .array (by decide) fun v hv => ?_
    rw [List.mem_singleton.1 hv]
    exact hpart

/-- The encoding of a value is read back, in its normal form, from any place of any sequence that
it stands in. No memory holds a text of `2^248` characters; one that long could declare more variants
than the field has elements. -/
theorem decode_encode {text : String} (hm : m.ReadFrom text) (hsize : text.length < 2 ^ 248)
    {t : Ty} (ht : t.Declared m) (hp : 2 ^ 248 < modulus) {v : Json} (hfits : Fits m t v)
    {xs : List Int} (h : encode m modulus t v = .ok xs) :
    (∀ pre suf : List Json, decode m modulus t (pre ++ xs.map .int ++ suf) pre.length =
      .ok (normalised m t v, xs.length)) ∧
      decodeExact m modulus t (xs.map .int) = .ok (normalised m t v) := by
  obtain ⟨height, hbounded⟩ := exists_bounded hm hsize
  have hread := reads_read hp hbounded ht hfits h
  refine ⟨fun pre suf => ?_, decodeExact_of_reads hread⟩
  rw [decode_of_reads hread, List.length_map]

/-- In front of `picture` stands an element that is not read, behind it a text. -/
theorem decode_encode_picture :
    decode Model.canvas starkPrime (.message "Pixel")
      ([.int 5] ++ [.int 7, .int 0, .int 1, .int (starkPrime - 2), .int 1, .int 0, .int 171, .int 1,
        .int 0, .int 0, .int 1] ++ [.str "end"]) 1 = .ok (plainPicture, 11) := by
  have hencode : encode Model.canvas starkPrime (.message "Pixel") picture =
      .ok [7, 0, 1, starkPrime - 2, 1, 0, 171, 1, 0, 0, 1] :=
    eq_ok_of_toOption (by decide +kernel)
  have hnormal : normalised Model.canvas (.message "Pixel") picture = plainPicture := rfl
  have h := decode_encode (.definitions Model.ofText_canvasText) Model.length_canvasText_lt
    (by decide : (Ty.message "Pixel").Declared Model.canvas) (by decide) fits_picture hencode
  rw [hnormal] at h
  exact h.1 [.int 5] [.str "end"]

end FeltRelay.Codec.Flat
