import FeltRelay.Proofs.Codec.Event.RoundTrip
import FeltRelay.Proofs.Codec.Flat.RoundTrip
import FeltRelay.Proofs.Schema.WellFormed

/-!
# The two encoders agree

The flat and the event encoder accept the same values, refuse the others for one kind of failure at
one place, and write the same payload: the elements of the events are the flat sequence without its
presence elements and array lengths (`agrees_encode`).
-/

namespace FeltRelay.Codec

open FeltRelay.Schema

/-- Two computations both succeed, with related results, or both fail with failures of one kind at
one place. -/
def Agrees {α β : Type} (R : α → β → Prop) : Except Failure α → Except Failure β → Prop
  | .ok a, .ok b => R a b
  | .error f, .error g => f.kind = g.kind ∧ f.place = g.place
  | _, _ => False

/-- The elements of events, in order. -/
def values (events : List Event) : List Int := events.filterMap Event.element?

/-- Elements of some types in order, and what is left of them without presence elements and array
lengths. -/
inductive Stripped (m : Model) : List Ty → List Int → List Int → Prop
  | nil : Stripped m [] [] []
  | scalar {s : Scalar} {ts : List Ty} {e : Int} {xs ys : List Int} (hs : s.isByteString = false)
      (rest : Stripped m ts xs ys) : Stripped m (.scalar s :: ts) (e :: xs) (e :: ys)
  | byteString {s : Scalar} {ts : List Ty} {xs ys : List Int} (hs : s.isByteString = true)
      (bytes : List UInt8) (rest : Stripped m ts xs ys) :
      Stripped m (.scalar s :: ts) ((packBytes bytes).map Int.ofNat ++ xs)
        ((packBytes bytes).map Int.ofNat ++ ys)
  | enum {name : String} {ts : List Ty} {i : Int} {xs ys : List Int} (rest : Stripped m ts xs ys) :
      Stripped m (.enum name :: ts) (i :: xs) (i :: ys)
  | absent {t : Ty} {ts : List Ty} {xs ys : List Int} (rest : Stripped m ts xs ys) :
      Stripped m (.optional t :: ts) (0 :: xs) ys
  | present {t : Ty} {ts : List Ty} {xs ys : List Int} (rest : Stripped m (t :: ts) xs ys) :
      Stripped m (.optional t :: ts) (1 :: xs) ys
  | array {t : Ty} {ts : List Ty} {n : Nat} {xs ys : List Int}
      (rest : Stripped m (List.replicate n t ++ ts) xs ys) :
      Stripped m (.array t :: ts) (n :: xs) ys
  | message {name : String} {spec : Message} {ts : List Ty} {xs ys : List Int}
      (h : m.message? name = some spec) (rest : Stripped m (spec.fields.map (·.type) ++ ts) xs ys) :
      Stripped m (.message name :: ts) xs ys

variable {m : Model} {modulus : Int}

/-- Where a byte string ends is determined by its first element. -/
theorem packBytes_append_inj {bytes bytes' : List UInt8} {xs ys : List Int}
    (h : (packBytes bytes).map Int.ofNat ++ xs = (packBytes bytes').map Int.ofNat ++ ys) :
    (packBytes bytes).map Int.ofNat = (packBytes bytes').map Int.ofNat ∧ xs = ys := by
  have hhead := congrArg List.head? h
  simp only [packBytes, List.map_cons, List.cons_append, List.head?_cons, Option.some.injEq,
    Int.ofNat.injEq] at hhead
  refine List.append_inj h ?_
  rw [List.length_map, List.length_map, length_packBytes, length_packBytes, hhead]

/-- What is left of elements is determined by them. -/
theorem Stripped.unique {ts : List Ty} {xs ys ys' : List Int} (h : Stripped m ts xs ys)
    (h' : Stripped m ts xs ys') : ys = ys' := by
  induction h generalizing ys' with
  | nil =>
    cases h'
    rfl
  | scalar hs rest ih =>
    cases h' with
    | scalar _ rest' => rw [ih rest']
    | byteString hs' =>
      rw [hs] at hs'
      cases hs'
  | byteString hs bytes rest ih =>
    rename_i xs _
    -- The sequence of the other derivation is no constructor form, so it is named before the cases.
    generalize hz : (packBytes bytes).map Int.ofNat ++ xs = zs at h'
    cases h' with
    | scalar hs' =>
      rw [hs] at hs'
      cases hs'
    | byteString _ bytes' rest' =>
      obtain ⟨hpack, rfl⟩ := packBytes_append_inj hz
      rw [hpack, ih rest']
  | enum rest ih =>
    cases h' with
    | enum rest' => rw [ih rest']
  | absent rest ih =>
    cases h' with
    | absent rest' => exact ih rest'
  | present rest ih =>
    cases h' with
    | present rest' => exact ih rest'
  | array rest ih =>
    rename_i n xs _
    generalize hz : (n : Int) :: xs = zs at h'
    cases h' with
    | array rest' =>
      obtain ⟨hn, rfl⟩ := List.cons.inj hz
      cases Int.ofNat.inj hn
      exact ih rest'
  | message h rest ih =>
    cases h' with
    | message h₁ rest' =>
      rw [h] at h₁
      cases h₁
      exact ih rest'

/-- In front of other elements, those of some types are left with the elements of their events. -/
def Strips (m : Model) (ts : List Ty) (xs : List Int) (events : List Event) : Prop :=
  ∀ us ys zs, Stripped m us ys zs → Stripped m (ts ++ us) (xs ++ ys) (values events ++ zs)

theorem Strips.nil : Strips m [] [] [] := fun _ _ _ h => h

theorem Strips.append {ts us : List Ty} {xs ys : List Int} {es fs : List Event}
    (h : Strips m ts xs es) (h' : Strips m us ys fs) :
    Strips m (ts ++ us) (xs ++ ys) (es ++ fs) := by
  intro vs zs ws hrest
  have hboth := h _ _ _ (h' _ _ _ hrest)
  rw [values, List.filterMap_append, List.append_assoc, List.append_assoc, List.append_assoc]
  exact hboth

/-! ### Agreement -/

namespace Agrees

variable {α β α' β' : Type} {R : α → β → Prop} {R' : α' → β' → Prop}

theorem error {f g : Failure} (hkind : f.kind = g.kind) (hplace : f.place = g.place) :
    Agrees R (.error f) (.error g) := ⟨hkind, hplace⟩

theorem bind {f : α → Except Failure α'} {g : β → Except Failure β'} {x : Except Failure α}
    {y : Except Failure β} (h : Agrees R x y) (hfg : ∀ a b, R a b → Agrees R' (f a) (g b)) :
    Agrees R' (x >>= f) (y >>= g) := by
  cases x with
  | error e =>
    cases y with
    | error e' => exact h
    | ok b => cases h
  | ok a =>
    cases y with
    | error e' => cases h
    | ok b => exact hfg a b h

theorem map {f : α → α'} {g : β → β'} {x : Except Failure α} {y : Except Failure β}
    (h : Agrees R x y) (hfg : ∀ a b, R a b → R' (f a) (g b)) : Agrees R' (x.map f) (y.map g) :=
  h.bind hfg

theorem imp {S : α → β → Prop} {x : Except Failure α} {y : Except Failure β} (h : Agrees R x y)
    (hRS : ∀ a b, R a b → S a b) : Agrees S x y := by
  cases x with
  | error e =>
    cases y with
    | error e' => exact h
    | ok b => cases h
  | ok a =>
    cases y with
    | error e' => cases h
    | ok b => exact hRS a b h

theorem map_right {g : β → β'} {S : α → β' → Prop} {x : Except Failure α} {y : Except Failure β}
    (h : Agrees R x y) (hg : ∀ a b, R a b → S a (g b)) : Agrees S x (y.map g) := by
  have hx : x = x.map id := by cases x <;> rfl
  rw [hx]
  exact h.map hg

/-- One computation for two purposes. -/
theorem same {f : α → α'} {g : α → β'} {x : Except Failure α} (h : ∀ a, x = .ok a → R' (f a) (g a)) :
    Agrees R' (x.map f) (x.map g) := by
  cases x with
  | error e => exact ⟨rfl, rfl⟩
  | ok a => exact h a rfl

end Agrees

theorem agrees_followedBy (ts : List Ty) {us : List Ty} {e₁ : Emission Int} {e₂ : Emission Event}
    {n₁ : Unit → Emission Int} {n₂ : Unit → Emission Event}
    (he : Agrees (Strips m ts) e₁.result e₂.result)
    (hn : Agrees (Strips m us) (n₁ ()).result (n₂ ()).result) :
    Agrees (Strips m (ts ++ us)) (e₁.followedBy n₁).result (e₂.followedBy n₂).result := by
  rw [Emission.result_followedBy, Emission.result_followedBy]
  cases h₁ : e₁.result with
  | error f =>
    cases h₂ : e₂.result with
    | error g =>
      rw [h₁, h₂] at he
      exact he
    | ok es =>
      rw [h₁, h₂] at he
      cases he
  | ok xs =>
    cases h₂ : e₂.result with
    | error g =>
      rw [h₁, h₂] at he
      cases he
    | ok es =>
      rw [h₁, h₂] at he
      exact hn.map fun ys fs h => Strips.append he h

theorem values_within (c : Container) (events : List Event) :
    values (Event.push c :: events ++ [Event.pop c]) = values events := by
  simp [values, List.filterMap_cons, Event.element?]

theorem values_map_value (ns : List Nat) :
    values (ns.map fun (n : Nat) => Event.value n) = ns.map Int.ofNat := by
  induction ns with
  | nil => rfl
  | cons n ns ih =>
    rw [List.map_cons, List.map_cons, ← ih]
    rfl

/-! ### Types -/

variable {flat : String → String → Json → Emission Int}
  {event : String → String → Json → Emission Event}

theorem agrees_scalar (s : Scalar) (path : String) (v : Json) :
    Agrees (Strips m [.scalar s]) (Flat.encodeTy m modulus flat (.scalar s) path v).result
      (Event.encodeTy m modulus event (.scalar s) path v).result := by
  rw [Event.encodeTy]
  by_cases hs : s.isByteString = true
  · rw [Flat.encodeTy_byteString hs, if_pos hs, Emission.result_ofExcept]
    refine Agrees.same fun bytes _ us ys zs hrest => ?_
    rw [values_map_value]
    exact .byteString hs bytes hrest
  · have hs' := Bool.eq_false_of_not_eq_true hs
    rw [Flat.encodeTy_scalar hs', if_neg hs, Emission.result_ofExcept]
    exact Agrees.same fun e _ us ys zs hrest => .scalar hs' hrest

theorem agrees_optional {t : Ty} (ht : ∀ path v, Agrees (Strips m [t])
      (Flat.encodeTy m modulus flat t path v).result
      (Event.encodeTy m modulus event t path v).result) (path : String) (v : Json) :
    Agrees (Strips m [.optional t]) (Flat.encodeTy m modulus flat (.optional t) path v).result
      (Event.encodeTy m modulus event (.optional t) path v).result := by
  by_cases hv : v = .null
  · subst hv
    intro us ys zs hrest
    exact .absent hrest
  · rw [Flat.encodeTy_optional hv, Event.encodeTy_optional hv, Emission.result_write_followedBy,
      Event.result_within]
    refine (ht path v).map fun xs es h us ys zs hrest => ?_
    rw [values_within]
    exact .present (h us ys zs hrest)

theorem agrees_encodeItems {t : Ty} (ht : ∀ path v, Agrees (Strips m [t])
      (Flat.encodeTy m modulus flat t path v).result
      (Event.encodeTy m modulus event t path v).result) (path : String) (i : Nat)
    (vs : List Json) :
    Agrees (Strips m (List.replicate vs.length t))
      (Flat.encodeItems (fun path v => Flat.encodeTy m modulus flat t path v) path i vs).result
      (Event.encodeItems (fun path v => Event.encodeTy m modulus event t path v) path i vs).result
    := by
  induction vs generalizing i with
  | nil => exact Strips.nil
  | cons v vs ih => exact agrees_followedBy [t] (ht _ v) (ih (i + 1))

theorem agrees_array {t : Ty} (ht : ∀ path v, Agrees (Strips m [t])
      (Flat.encodeTy m modulus flat t path v).result
      (Event.encodeTy m modulus event t path v).result) (path : String) (v : Json) :
    Agrees (Strips m [.array t]) (Flat.encodeTy m modulus flat (.array t) path v).result
      (Event.encodeTy m modulus event (.array t) path v).result := by
  cases v with
  | arr vs =>
    rw [Flat.encodeTy, Event.encodeTy, Emission.result_write_followedBy, Event.result_within]
    refine (agrees_encodeItems ht path 0 vs).map fun xs es h us ys zs hrest => ?_
    rw [values_within]
    exact .array (h us ys zs hrest)
  | _ => exact Agrees.error rfl rfl

theorem agrees_enum (name path : String) (v : Json) :
    Agrees (Strips m [.enum name]) (Flat.encodeTy m modulus flat (.enum name) path v).result
      (Event.encodeTy m modulus event (.enum name) path v).result := by
  cases hm : m.enum name with
  | error f =>
    simp only [Flat.encodeTy, Event.encodeTy, hm]
    exact Agrees.error rfl rfl
  | ok spec =>
    cases v with
    | str variant =>
      cases hi : spec.indexOf? variant with
      | none =>
        simp only [Flat.encodeTy, Event.encodeTy, hm, hi]
        exact Agrees.error rfl rfl
      | some i =>
        simp only [Flat.encodeTy, Event.encodeTy, hm, hi]
        exact fun us ys zs hrest => .enum hrest
    | _ =>
      simp only [Flat.encodeTy, Event.encodeTy, hm]
      exact Agrees.error rfl rfl

theorem agrees_encodeTy (hmsg : ∀ name path v,
      Agrees (Strips m [.message name]) (flat name path v).result (event name path v).result)
    (t : Ty) (path : String) (v : Json) :
    Agrees (Strips m [t]) (Flat.encodeTy m modulus flat t path v).result
      (Event.encodeTy m modulus event t path v).result := by
  induction t generalizing path v with
  | scalar s => exact agrees_scalar s path v
  | message name => exact hmsg name path v
  | enum name => exact agrees_enum name path v
  | optional t ih => exact agrees_optional ih path v
  | array t ih => exact agrees_array ih path v

/-! ### Messages -/

theorem agrees_encodeFields (ht : ∀ t path v, Agrees (Strips m [t])
      (Flat.encodeTy m modulus flat t path v).result
      (Event.encodeTy m modulus event t path v).result) (name path : String)
    (ms : List (String × Json)) (fields : List Field) :
    Agrees (Strips m (fields.map (·.type)))
      (Flat.encodeFields (Flat.encodeTy m modulus flat) name path ms fields).result
      (Event.encodeFields (Event.encodeTy m modulus event) name path ms fields).result := by
  induction fields with
  | nil => exact Strips.nil
  | cons f fields ih =>
    rw [Flat.encodeFields, Event.encodeFields]
    refine agrees_followedBy [f.type] ?_ ih
    -- A key has no element.
    have hkey : ∀ {xs : List Int} {es : List Event}, Strips m [f.type] xs es →
        Strips m [f.type] xs ([Event.key f.name] ++ es) := fun h => h
    cases hl : ms.lookup f.name with
    | some v =>
      dsimp only
      rw [Emission.result_write_followedBy]
      exact (ht f.type _ v).map_right fun xs es h => hkey h
    | none =>
      dsimp only
      by_cases hopt : f.type.isOptional = true
      · rw [if_pos hopt, if_pos hopt, Emission.result_write_followedBy]
        refine Agrees.map_right ?_ fun xs es h => hkey h
        cases hf : f.type with
        | optional t => exact fun us ys zs hrest => .absent hrest
        | _ =>
          rw [hf] at hopt
          cases hopt
      · rw [if_neg hopt, if_neg hopt]
        exact Agrees.error rfl rfl

theorem agrees_encodeMessage (depth : Nat) (name path : String) (v : Json) :
    Agrees (Strips m [.message name]) (Flat.encodeMessage m modulus depth name path v).result
      (Event.encodeMessage m modulus depth name path v).result := by
  induction depth generalizing name path v with
  | zero => exact Agrees.error rfl rfl
  | succ depth ih =>
    cases hm : m.message name with
    | error f =>
      simp only [Flat.encodeMessage, Event.encodeMessage, hm]
      exact Agrees.error rfl rfl
    | ok spec =>
      cases v with
      | obj ms =>
        simp only [Flat.encodeMessage, Event.encodeMessage, hm]
        cases hu : unknownNames spec ms with
        | nil =>
          dsimp only
          rw [Event.result_within]
          refine Agrees.map_right (agrees_encodeFields (agrees_encodeTy ih) name path ms spec.fields)
            fun xs es h us ys zs hrest => ?_
          rw [values_within]
          exact .message (Model.message_eq_ok hm) (h us ys zs hrest)
        | cons k ks => exact Agrees.error rfl rfl
      | _ =>
        simp only [Flat.encodeMessage, Event.encodeMessage, hm]
        exact Agrees.error rfl rfl

/-- The two encoders agree on what they accept and why not, and on the payload. -/
theorem agrees_encode (t : Ty) (v : Json) :
    Agrees (Strips m [t]) (Flat.encode m modulus t v) (Event.encode m modulus t v) :=
  agrees_encodeTy (agrees_encodeMessage _) t "$" v

/-- The payload of events is all that the flat sequence keeps without its presence elements and
array lengths. -/
theorem stripped_iff_of_encode {t : Ty} {v : Json} {xs : List Int} {events : List Event}
    (hx : Flat.encode m modulus t v = .ok xs) (he : Event.encode m modulus t v = .ok events)
    (ys : List Int) : Stripped m [t] xs ys ↔ ys = values events := by
  have hagree : Agrees (Strips m [t]) (.ok xs) (.ok events) := by
    rw [← hx, ← he]
    exact agrees_encode t v
  have hself : Stripped m [t] xs (values events) := by
    have h := hagree [] [] [] .nil
    rwa [List.append_nil, List.append_nil, List.append_nil] at h
  constructor
  · exact fun h => h.unique hself
  · rintro rfl
    exact hself

/-- The two encoders accept the same values, and refuse the others for one kind of failure at one
place. The elements of the events are the flat sequence without presence elements and array lengths,
and both are read back as one value. -/
theorem encoders_agree {text : String} (hm : m.ReadFrom text) (hsize : text.length < 2 ^ 248)
    {t : Ty} (ht : t.Declared m) (hp : 2 ^ 248 < modulus) (v : Json) :
    Agrees (fun xs events => (∀ ys, Stripped m [t] xs ys ↔ ys = values events) ∧
        (Fits m t v →
          Event.decode m modulus t (events.map Event.toJson) = .ok (normalised m t v) ∧
            Flat.decodeExact m modulus t (xs.map .int) = .ok (normalised m t v)))
      (Flat.encode m modulus t v) (Event.encode m modulus t v) := by
  obtain ⟨height, hbounded⟩ := Flat.exists_bounded hm hsize
  have hagree : Agrees (Strips m [t]) (Flat.encode m modulus t v) (Event.encode m modulus t v) :=
    agrees_encode t v
  cases hx : Flat.encode m modulus t v with
  | error f =>
    cases he : Event.encode m modulus t v with
    | error g =>
      rw [hx, he] at hagree
      exact hagree
    | ok events =>
      rw [hx, he] at hagree
      cases hagree
  | ok xs =>
    cases he : Event.encode m modulus t v with
    | error g =>
      rw [hx, he] at hagree
      cases hagree
    | ok events =>
      refine ⟨stripped_iff_of_encode hx he, fun hfits => ⟨?_, ?_⟩⟩
      · exact Event.decode_of_reads (Event.reads_read hp hbounded.variants hfits he)
      · exact Flat.decodeExact_of_reads (Flat.reads_read hp hbounded ht hfits hx)

/-- The events of `Flat.picture`. -/
def pictureEvents : List Event :=
  [.push .struct, .key "x", .value 7, .key "note", .push .optional, .pop .optional,
    .key "parts", .push .array,
      .push .struct, .key "x", .value (starkPrime - 2),
        .key "note", .push .optional, .value 0, .value 171, .value 1, .pop .optional,
        .key "parts", .push .array, .pop .array,
        .key "hue", .push .enum, .value 0, .pop .enum, .pop .struct,
      .pop .array,
    .key "hue", .push .enum, .value 1, .pop .enum, .pop .struct]

/-- The flat sequence of `Flat.picture` has two presence elements and two array lengths more. -/
theorem encoders_agree_picture :
    Stripped Model.canvas [.message "Pixel"] [7, 0, 1, starkPrime - 2, 1, 0, 171, 1, 0, 0, 1]
        [7, starkPrime - 2, 0, 171, 1, 0, 1] ∧
      Event.decode Model.canvas starkPrime (.message "Pixel") (pictureEvents.map Event.toJson) =
        .ok Flat.plainPicture ∧
      Flat.decodeExact Model.canvas starkPrime (.message "Pixel")
        ([7, 0, 1, starkPrime - 2, 1, 0, 171, 1, 0, 0, 1].map Json.int) =
        .ok Flat.plainPicture := by
  have hflat : Flat.encode Model.canvas starkPrime (.message "Pixel") Flat.picture =
      .ok [7, 0, 1, starkPrime - 2, 1, 0, 171, 1, 0, 0, 1] :=
    eq_ok_of_toOption (by decide +kernel)
  have hevents : Event.encode Model.canvas starkPrime (.message "Pixel") Flat.picture =
      .ok pictureEvents := eq_ok_of_toOption (by decide +kernel)
  have hnormal : normalised Model.canvas (.message "Pixel") Flat.picture = Flat.plainPicture := rfl
  have h := encoders_agree (.definitions Model.ofText_canvasText) Model.length_canvasText_lt
    (by decide : (Ty.message "Pixel").Declared Model.canvas)
    (by decide : (2 : Int) ^ 248 < starkPrime) Flat.picture
  rw [hflat, hevents] at h
  obtain ⟨hvalues, hdecode⟩ := h
  rw [hnormal] at hdecode
  exact ⟨(hvalues _).2 rfl, hdecode Flat.fits_picture⟩

end FeltRelay.Codec
