import FeltRelay.Proofs.Codec.Event.Element
import FeltRelay.Proofs.Codec.Event.Encode
import FeltRelay.Proofs.Codec.Normal

/-!
# The event round trip

What the event encoder writes is read back as the value in its normal form. Containers say where
they end, so no width and no height is needed; each message has events of its own, which pay for the
depth that the decoder allows itself.
-/

namespace FeltRelay.Codec.Event

open FeltRelay.Schema

/-- What the decoder of a depth has to do with the messages that the encoder of a depth writes. -/
def ReadsMessages (m : Model) (modulus : Int) (deep depth : Nat) : Prop :=
  ∀ {name path v events}, Fits m (.message name) v →
    (encodeMessage m modulus deep name path v).result = .ok events → events.length < depth →
    Reads (decodeMessage m modulus depth name) (events.map toJson) (normalMessage m deep name v)

/-- A value of a type is read from its events. -/
def ReadsTy (m : Model) (modulus : Int) (deep depth : Nat) (t : Ty) : Prop :=
  ∀ {path v events}, Fits m t v →
    (encodeTy m modulus (encodeMessage m modulus deep) t path v).result = .ok events →
    events.length < depth →
    Reads (decodeTy m modulus (decodeMessage m modulus depth) t) (events.map toJson)
      (normalTy (normalMessage m deep) t v)

variable {m : Model} {modulus : Int} {deep depth : Nat}

/-! ### Types -/

theorem readsTy_scalar (hp : 2 ^ 248 < modulus) (s : Scalar) :
    ReadsTy m modulus deep depth (.scalar s) := by
  intro path v events hfits h _
  rw [decodeTy, normalTy]
  by_cases hs : s.isByteString = true
  · rw [encodeTy_byteString hs] at h
    obtain ⟨bytes, hbytes, rfl⟩ := map_eq_ok_iff.1 h
    cases hfits with
    | scalar hlen =>
      have helem := packBytes_lt_modulus hp (hlen bytes hs (bytesOfJson_path hbytes "$"))
      obtain ⟨text, htext, hnormal⟩ := textOfBytes_of_bytesOfJson hs hbytes
      rw [if_pos hs, hnormal, List.map_map]
      exact reads_decodeBytes helem htext
  · have hs' := Bool.eq_false_of_not_eq_true hs
    rw [encodeTy_scalar hs'] at h
    obtain ⟨e, he, rfl⟩ := map_eq_ok_iff.1 h
    rw [if_neg hs]
    refine Reads.get_bind fun start _ => ?_
    obtain ⟨h0, hlt, hback⟩ := ofElement_toElement (by omega) hs' he start.position
    obtain ⟨n, rfl⟩ := Int.eq_ofNat_of_zero_le h0
    exact (reads_element hlt).bind (Reads.liftM hback)

theorem readsTy_enum (hp : 2 ^ 248 < modulus)
    (hm : ∀ spec ∈ m.enums, spec.variants.length ≤ 2 ^ 248) (name : String) :
    ReadsTy m modulus deep depth (.enum name) := by
  intro path v events _ h _
  obtain ⟨spec, variant, i, hspec, rfl, hi, rfl⟩ := of_encodeTy_enum h
  have hvariant := Enumeration.getElem?_of_indexOf? hi
  have hlt : (i : Int) < modulus := by
    have hi' := (List.getElem?_eq_some_iff.1 hvariant).1
    have := hm spec (Model.mem_of_enum? hspec)
    omega
  rw [decodeTy, normalTy]
  refine Reads.liftM_bind (Model.enum_of_enum? hspec) ?_
  refine (reads_expect "push" Container.enum.name).bind (Reads.get_bind fun start _ => ?_)
  refine (reads_element hlt).bind ?_
  simp only [hvariant]
  exact (reads_expect "pop" Container.enum.name).bind_nil (Reads.pure _)

/-- An absent value is read from an empty container. -/
theorem reads_absent (ofMessage : String → Decoder Json) (t : Ty) :
    Reads (decodeTy m modulus ofMessage (.optional t))
      [(push .optional).toJson, (pop .optional).toJson] .null := by
  rw [decodeTy]
  refine (reads_expect "push" Container.optional.name).bind (reads_atPop_bind ?_)
  rw [if_pos rfl]
  exact (reads_advance _).bind_nil (Reads.pure _)

theorem readsTy_optional {t : Ty} (ht : ReadsTy m modulus deep depth t) :
    ReadsTy m modulus deep depth (.optional t) := by
  intro path v events hfits h hdepth
  by_cases hv : v = .null
  · subst hv
    cases h
    exact reads_absent _ t
  · rw [encodeTy_optional hv] at h
    obtain ⟨inner, hinner, rfl⟩ := of_result_within h
    rw [List.length_append, List.length_cons] at hdepth
    have hfits' : Fits m t v := by
      cases hfits with
      | absent => exact absurd rfl hv
      | optional h => exact h
    have hnormal : normalTy (normalMessage m deep) (.optional t) v =
        normalTy (normalMessage m deep) t v := by
      cases v with
      | null => exact absurd rfl hv
      | _ => rfl
    have hread := ht hfits' hinner (by omega)
    -- The first event tells a value from the end of the optional.
    obtain ⟨e, rest, rfl, hopens⟩ := opens_encodeTy hinner
    rw [decodeTy, hnormal, List.map_append]
    refine (reads_expect "push" Container.optional.name).bind (reads_notAtPop_bind hopens ?_)
    rw [if_neg Bool.false_ne_true]
    refine Reads.bind hread ?_
    exact (reads_expect "pop" Container.optional.name).bind_nil (Reads.pure _)

/-- Items are read up to the closing of their array. -/
theorem reads_decodeItems {d : Decoder Json} {parts : List (List Event)} {vs : List Json}
    (h : List.Forall₂ (fun part v => Opens part ∧ Reads d (part.map toJson) v) parts vs) {fuel : Nat}
    (hfuel : vs.length < fuel) :
    Reads (decodeItems d fuel) (parts.flatten.map toJson ++ [(pop .array).toJson]) vs := by
  induction h generalizing fuel with
  | nil =>
    obtain ⟨fuel, rfl⟩ : ∃ k, fuel = k + 1 := ⟨fuel - 1, by omega⟩
    rw [decodeItems]
    refine reads_atPop_bind ?_
    rw [if_pos rfl]
    exact (reads_advance _).bind_nil (Reads.pure _)
  | cons hhead _ ih =>
    rename_i part v parts vs _
    obtain ⟨fuel, rfl⟩ : ∃ k, fuel = k + 1 := ⟨fuel - 1, by omega⟩
    obtain ⟨⟨e, rest, rfl, hopens⟩, hread⟩ := hhead
    rw [List.length_cons] at hfuel
    rw [decodeItems, List.flatten_cons, List.map_append, List.append_assoc]
    refine reads_notAtPop_bind hopens ?_
    rw [if_neg Bool.false_ne_true]
    exact Reads.bind hread ((ih (by omega)).bind_nil (Reads.pure _))

theorem reads_items {t : Ty} (ht : ReadsTy m modulus deep depth t) {vs : List Json}
    {parts : List (List Event)}
    (h : List.Forall₂ (fun v part => ∃ path,
      (encodeTy m modulus (encodeMessage m modulus deep) t path v).result = .ok part) vs parts)
    (hfits : ∀ v ∈ vs, Fits m t v) (hdepth : ∀ part ∈ parts, part.length < depth) :
    List.Forall₂ (fun part v => Opens part ∧
        Reads (decodeTy m modulus (decodeMessage m modulus depth) t) (part.map toJson) v)
      parts (vs.map (normalTy (normalMessage m deep) t)) := by
  induction h with
  | nil => exact .nil
  | cons hhead _ ih =>
    obtain ⟨path, hhead⟩ := hhead
    rw [List.map_cons]
    refine .cons ⟨opens_encodeTy hhead, ?_⟩ ?_
    · exact ht (hfits _ (List.mem_cons_self ..)) hhead (hdepth _ (List.mem_cons_self ..))
    · exact ih (fun v hv => hfits v (List.mem_cons_of_mem _ hv))
        fun part hpart => hdepth part (List.mem_cons_of_mem _ hpart)

/-- Items have an event each. -/
theorem length_le_flatten {R : List Event → Json → Prop} {parts : List (List Event)}
    {vs : List Json} (h : List.Forall₂ (fun part v => Opens part ∧ R part v) parts vs) :
    vs.length ≤ parts.flatten.length := by
  induction h with
  | nil => exact Nat.le_refl 0
  | cons hhead _ ih =>
    obtain ⟨⟨e, rest, rfl, -⟩, -⟩ := hhead
    rw [List.length_cons, List.flatten_cons, List.length_append, List.length_cons]
    omega

theorem readsTy_array {t : Ty} (ht : ReadsTy m modulus deep depth t) :
    ReadsTy m modulus deep depth (.array t) := by
  intro path v events hfits h hdepth
  cases hfits with
  | array _ hitems =>
  obtain ⟨inner, hinner, rfl⟩ := of_result_within h
  obtain ⟨parts, hparts, rfl⟩ := of_result_encodeItems hinner
  have hread := reads_items ht hparts hitems fun part hpart => by
    have hle := (List.sublist_flatten_of_mem hpart).length_le
    rw [List.length_append, List.length_cons] at hdepth
    omega
  rw [decodeTy, normalTy, List.map_append]
  refine (reads_expect "push" Container.array.name).bind (Reads.get_bind fun s hs => ?_)
  have hfuel := length_le_flatten hread
  have hle := hs.length_le
  rw [List.append_eq, List.length_append, List.length_map] at hle
  exact (reads_decodeItems hread (by omega)).bind_nil (Reads.pure _)

theorem readsTy (hp : 2 ^ 248 < modulus) (hm : ∀ spec ∈ m.enums, spec.variants.length ≤ 2 ^ 248)
    (hmsg : ReadsMessages m modulus deep depth) (t : Ty) : ReadsTy m modulus deep depth t := by
  induction t with
  | scalar s => exact readsTy_scalar hp s
  | message name =>
    intro path v events hfits h hdepth
    exact hmsg hfits h hdepth
  | enum name => exact readsTy_enum hp hm name
  | optional t ih => exact readsTy_optional ih
  | array t ih => exact readsTy_array ih

/-! ### Messages -/

/-- The fields of a message are read from what was written for them. -/
theorem reads_decodeFields {name path : String} {ms : List (String × Json)} {fields : List Field}
    (ht : ∀ f ∈ fields, ReadsTy m modulus deep depth f.type)
    (hfits : ∀ f ∈ fields, ∀ v, ms.lookup f.name = some v → Fits m f.type v) {events : List Event}
    (h : (encodeFields (encodeTy m modulus (encodeMessage m modulus deep)) name path ms
      fields).result = .ok events) (hdepth : events.length < depth) (old : List (String × Json)) :
    Reads (decodeFields (decodeTy m modulus (decodeMessage m modulus depth)) old fields)
      (events.map toJson)
      (Entries.putAll old (fields.map fun f => (f.name,
        ((ms.lookup f.name).map (normalTy (normalMessage m deep) f.type)).getD .null))) := by
  induction fields generalizing events old with
  | nil =>
    cases h
    exact Reads.pure _
  | cons f fields ih =>
    obtain ⟨es, fs, path', rfl, hrest, hes, hopt⟩ := of_encodeFields_cons h
    rw [List.length_append, List.length_cons] at hdepth
    have hself := List.mem_cons_self (a := f) (l := fields)
    have htail := ih (fun g hg => ht g (List.mem_cons_of_mem _ hg))
      (fun g hg => hfits g (List.mem_cons_of_mem _ hg)) hrest (by omega)
    have hhead : Reads (decodeTy m modulus (decodeMessage m modulus depth) f.type) (es.map toJson)
        (((ms.lookup f.name).map (normalTy (normalMessage m deep) f.type)).getD .null) := by
      cases hl : ms.lookup f.name with
      | some v =>
        rw [hl] at hes
        exact ht f hself (hfits f hself v hl) hes (by omega)
      | none =>
        rw [hl] at hes
        cases hf : f.type with
        | optional t =>
          rw [hf] at hes
          cases hes
          exact reads_absent _ t
        | _ =>
          have := hopt hl
          rw [hf] at this
          cases this
    rw [List.map_append, List.map_cons, List.cons_append]
    exact (reads_expect "key" f.name).bind (hhead.bind (htail _))

/-- A message is read from its events, however deep the value. -/
theorem readsMessages (hp : 2 ^ 248 < modulus)
    (hm : ∀ spec ∈ m.enums, spec.variants.length ≤ 2 ^ 248) (deep depth : Nat) :
    ReadsMessages m modulus deep depth := by
  -- Every message has an event of its own, so the events pay for the depth alone.
  induction deep generalizing depth with
  | zero =>
    intro name path v events _ h
    cases h
  | succ deep ih =>
    intro name path v events hfits h hdepth
    obtain ⟨_, spec, ms, inner, hdeep, hspec, rfl, hfields, rfl⟩ := of_encodeMessage h
    cases hdeep
    rw [List.length_append, List.length_cons] at hdepth
    obtain ⟨depth, rfl⟩ : ∃ k, depth = k + 1 := ⟨depth - 1, by omega⟩
    have hread := reads_decodeFields (fun f hf => readsTy hp hm (ih depth) f.type)
      (fun f hf v hv => by
        cases hfits with
        | message hsub => exact hsub spec hspec f hf v hv)
      hfields (by rw [List.length_singleton] at hdepth; omega) []
    have hnormal : normalMessage m (deep + 1) name (.obj ms) =
        .obj (normalFields (normalTy (normalMessage m deep)) ms spec.fields) := by
      simp only [normalMessage, hspec]
    rw [decodeMessage, hnormal, List.map_append]
    refine Reads.liftM_bind (Model.message_of_message? hspec) ?_
    refine (reads_expect "push" Container.struct.name).bind (hread.bind ?_)
    exact (reads_expect "pop" Container.struct.name).bind_nil (Reads.pure _)

/-! ### Whole sequences -/

/-- A value is read from its events, with the depth that the decoder allows itself. -/
theorem reads_read (hp : 2 ^ 248 < modulus)
    (hm : ∀ spec ∈ m.enums, spec.variants.length ≤ 2 ^ 248) {t : Ty} {v : Json} (hfits : Fits m t v)
    {events : List Event} (h : encode m modulus t v = .ok events) :
    Reads (read m modulus t) (events.map toJson) (normalised m t v) := by
  refine Reads.get_bind fun s hs => ?_
  have hle : events.length ≤ s.rest.length := by
    have := hs.length_le
    rwa [List.length_map] at this
  exact readsTy hp hm (readsMessages hp hm _ _) t hfits h (Nat.lt_succ_of_le hle)

theorem decode_of_reads {t : Ty} {v : Json} {items : List Json}
    (h : Reads (read m modulus t) items v) : decode m modulus t items = .ok v := by
  have hrun := h [] 0
  rw [List.append_nil] at hrun
  rw [decode, Input.from, List.drop_zero, hrun, ok_bind]
  simp

end FeltRelay.Codec.Event
