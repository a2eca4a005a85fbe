import FeltRelay.Proofs.Cairo.Form
import FeltRelay.Proofs.Codec.Flat.RoundTrip
import FeltRelay.Proofs.Schema.Unambiguous

/-!
# The serialisation of declared types

A value serialises, by the types that the file of its model declares, to the elements that the codec
writes for it, and it has a serialisation exactly if the codec accepts it (`serialise_emit`). The
proof follows the types and, for messages, the depth of the value.
-/

namespace FeltRelay.Cairo

open FeltRelay.Codec FeltRelay.Codec.Flat FeltRelay.Schema

variable {m : Model} {f : File}
variable {ofMessage : String → String → Json → Emission Int}

/-! ### Members -/

theorem mirrors_field (hfile : f.Resolvable) {value : Schema.Ty → Json → Option Value}
    {encode : Schema.Ty → String → Json → Emission Int} {field : Field}
    (hmaybe : usesMaybe field.type = true → f.maybe = true)
    (h : ∀ path v, Mirrors (serialise f.items (Ty.ofSchema field.type).expr)
      (value field.type v) (encode field.type path v))
    (name path : String) (ms : List (String × Json)) :
    Mirrors (serialise f.items (Ty.ofSchema field.type).expr) (Value.ofField value ms field)
      (match ms.lookup field.name with
        | some v => encode field.type (memberPath path field.name) v
        | none =>
          if field.type.isOptional then .write [0]
          else .stop (missingField (memberPath path field.name) field.name name)) := by
  rw [Value.ofField]
  cases ms.lookup field.name with
  | some v => exact h _ v
  | none =>
    cases htype : field.type with
    | optional t =>
      -- `Maybe` is declared if any field of the model uses it.
      have hdeclared := hmaybe (by rw [htype]; rfl)
      exact .write (serialise_absent hfile hdeclared _)
    | _ => exact .stop _

/-- The members of a struct mirror the fields of a message if each member mirrors its field. -/
theorem mirrors_fields (hfile : f.Resolvable) {value : Schema.Ty → Json → Option Value}
    {encode : Schema.Ty → String → Json → Emission Int} {fields : List Field}
    (hmaybe : ∀ field ∈ fields, usesMaybe field.type = true → f.maybe = true)
    (h : ∀ field ∈ fields, ∀ path v, Mirrors (serialise f.items (Ty.ofSchema field.type).expr)
      (value field.type v) (encode field.type path v))
    (name path : String) (ms : List (String × Json)) :
    Mirrors (serialiseMembers f.items
        (fields.map fun field => (identifier field.name, (Ty.ofSchema field.type).expr)))
      (Value.ofFields value ms fields) (encodeFields encode name path ms fields) := by
  induction fields with
  | nil => exact .write rfl
  | cons field fields ih =>
    have hfield := mirrors_field hfile (hmaybe field (List.mem_cons_self ..))
      (h field (List.mem_cons_self ..)) name path ms
    have hfields := ih (fun g hg => hmaybe g (List.mem_cons_of_mem _ hg))
      fun g hg => h g (List.mem_cons_of_mem _ hg)
    rw [Value.ofFields, encodeFields]
    refine hfield.followedBy hfields fun v members => ?_
    rw [List.map_cons, serialiseMembers, if_pos rfl]

/-! ### Types and messages -/

section Model

variable (hfile : (File.ofModel m).Resolvable)
variable (hvariants : ∀ spec ∈ m.enums, ∀ v ∈ spec.variants, Naming.IsVariantName v.toList)

include hfile hvariants

theorem serialise_enum {name s : String} {spec : Enumeration} (hspec : m.enum? name = some spec)
    (hs : s ∈ spec.variants) :
    serialise (File.ofModel m).items (.named (identifier name)) (.variant (identifier s) .unit) =
      (spec.indexOf? s).map fun (i : Nat) => [(i : Int)] := by
  have hmem := Model.mem_of_enum? hspec
  have hname : spec.name = name := by simpa using List.find?_some hspec
  have hshape := File.shape?_variants hfile (List.mem_map_of_mem hmem)
  rw [hname] at hshape
  exact serialise_variant hs (fun u hu =>
    identifier_inj (hvariants spec hmem u hu) (hvariants spec hmem s hs)) hshape

theorem mirrors_enum {messageValue : String → Json → Option Value} (name path : String) (v : Json) :
    Mirrors (serialise (File.ofModel m).items (.named (identifier name)))
      (Value.ofTy m messageValue (.enum name) v)
      (encodeTy m starkPrime ofMessage (.enum name) path v) := by
  cases hspec : m.enum? name with
  | none =>
    cases v <;> simp only [Value.ofTy, encodeTy, Model.enum, hspec] <;> exact .stop _
  | some spec =>
    cases v with
    | str s =>
      have henum := Model.enum_of_enum? hspec
      cases hi : spec.indexOf? s with
      | some i =>
        have hs : s ∈ spec.variants := List.mem_of_getElem? (Enumeration.getElem?_of_indexOf? hi)
        have hvalue : Value.ofTy m messageValue (.enum name) (.str s) =
            some (.variant (identifier s) .unit) := by
          rw [Value.ofTy, hspec]
          exact if_pos hs
        simp only [hvalue, encodeTy, henum, hi]
        apply Mirrors.write
        rw [serialise_enum hfile hvariants hspec hs, hi]
        rfl
      | none =>
        have hs : s ∉ spec.variants := fun hs => by
          simpa using List.findIdx?_eq_none_iff.1 hi s hs
        have hvalue : Value.ofTy m messageValue (.enum name) (.str s) = none := by
          rw [Value.ofTy, hspec]
          exact if_neg hs
        simp only [hvalue, encodeTy, henum, hi]
        exact .stop _
    | _ =>
      simp only [Value.ofTy, encodeTy, Model.enum, hspec]
      exact .stop _

/-- If messages serialise to what the encoder writes for them, so do values of all types. -/
theorem mirrors_ofTy {messageValue : String → Json → Option Value}
    (hmessage : ∀ name path v, Mirrors (serialise (File.ofModel m).items (.named (identifier name)))
      (messageValue name v) (ofMessage name path v))
    {t : Schema.Ty} (hmaybe : usesMaybe t = true → (File.ofModel m).maybe = true) (path : String)
    (v : Json) :
    Mirrors (serialise (File.ofModel m).items (Ty.ofSchema t).expr) (Value.ofTy m messageValue t v)
      (encodeTy m starkPrime ofMessage t path v) := by
  induction t generalizing path v with
  | scalar s => exact mirrors_scalar s (File.shape?_scalar hfile s) path v
  | message name => exact hmessage name path v
  | enum name => exact mirrors_enum hfile hvariants name path v
  | optional t ih =>
    have hdeclared : (File.ofModel m).maybe = true := hmaybe rfl
    by_cases hv : v = .null
    · subst hv
      exact .write (serialise_absent hfile hdeclared _)
    · have hvalue : Value.ofTy m messageValue (.optional t) v =
          (Value.ofTy m messageValue t v).map .present := by
        cases v with
        | null => exact absurd rfl hv
        | _ => rfl
      rw [hvalue, encodeTy_optional hv]
      exact (ih (fun _ => hdeclared) path v).behind fun value _ =>
        serialise_present hfile hdeclared _ value
  | array t ih =>
    cases v with
    | arr vs => exact mirrors_array hfile (mirrors_items (fun path v => ih hmaybe path v) path 0 vs)
    | _ => exact .stop _

/-- A message serialises to what the encoder writes for it if those one level deeper do. -/
theorem mirrors_struct {name : String} {spec : Message} (hspec : m.message? name = some spec)
    {depth : Nat} (hdepth : ∀ name path v,
      Mirrors (serialise (File.ofModel m).items (.named (identifier name)))
        (Value.ofMessage m depth name v) (encodeMessage m starkPrime depth name path v))
    (path : String) (ms : List (String × Json)) :
    Mirrors (serialise (File.ofModel m).items (.named (identifier name)))
      (Value.ofMessage m (depth + 1) name (.obj ms))
      (encodeMessage m starkPrime (depth + 1) name path (.obj ms)) := by
  have hmem := Model.mem_of_message? hspec
  have hname : spec.name = name := by simpa using List.find?_some hspec
  have hmaybe : ∀ field ∈ spec.fields, usesMaybe field.type = true →
      (File.ofModel m).maybe = true := fun field hfield huses =>
    List.any_eq_true.2 ⟨spec, hmem, List.any_eq_true.2 ⟨field, hfield, huses⟩⟩
  have hfields := mirrors_fields hfile hmaybe (fun field hfield path v =>
    mirrors_ofTy hfile hvariants hdepth (hmaybe field hfield) path v) name path ms
  have hshape := File.shape?_struct hfile (List.mem_map_of_mem hmem)
  rw [hname, List.map_map] at hshape
  -- Unknown members stop the encoder before it writes any field.
  by_cases hknown : ∀ e ∈ ms, e.1 ∈ spec.fieldNames
  · have hvalue : Value.ofMessage m (depth + 1) name (.obj ms) =
        (Value.ofFields (Value.ofTy m (Value.ofMessage m depth)) ms spec.fields).map .struct := by
      rw [Value.ofMessage, hspec]
      exact if_pos hknown
    rw [encodeMessage_obj hspec (unknownNames_eq_nil_iff.2 hknown), hvalue]
    refine hfields.map fun members => ?_
    rw [serialise, hshape]
    rfl
  · have hvalue : Value.ofMessage m (depth + 1) name (.obj ms) = none := by
      rw [Value.ofMessage, hspec]
      exact if_neg hknown
    rw [hvalue]
    cases hunknown : unknownNames spec ms with
    | nil => exact absurd (unknownNames_eq_nil_iff.1 hunknown) hknown
    | cons k ks =>
      simp only [encodeMessage, Model.message_of_message? hspec, hunknown]
      exact .stop _

/-- A message of every depth serialises to what the encoder writes for it. -/
theorem mirrors_ofMessage (depth : Nat) (name path : String) (v : Json) :
    Mirrors (serialise (File.ofModel m).items (.named (identifier name)))
      (Value.ofMessage m depth name v) (encodeMessage m starkPrime depth name path v) := by
  induction depth generalizing name path v with
  | zero => exact .stop _
  | succ depth ih =>
    cases hspec : m.message? name with
    | none =>
      cases v <;> simp only [Value.ofMessage, encodeMessage, Model.message, hspec] <;> exact .stop _
    | some spec =>
      cases v with
      | obj ms => exact mirrors_struct hfile hvariants hspec ih path ms
      | _ =>
        simp only [Value.ofMessage, encodeMessage, Model.message, hspec]
        exact .stop _

end Model

/-! ### Files -/

/-- The file of a definitions text declares types by which each value of a message serialises to
the elements that the codec writes for it; no other value has a serialisation. -/
theorem serialise_emit {text : String} (h : Model.ofText text = .ok m)
    (hfile : (File.ofModel m).Resolvable) {source : Option String}
    (hsource : ∀ s ∈ source, '\n' ∉ s.toList) :
    ∃ items, declarations? (emit m.lock source) = some items ∧ ∀ name v xs,
      encode m starkPrime (.message name) v = .ok xs ↔
        ∃ value, Value.ofJson m (.message name) v = some value ∧
          serialise items (.named (identifier name)) value = some xs := by
  have hword : ∀ c : Char, c = '_' ∨ c.isLower = true ∨ c.isDigit = true → isWordChar c = true := by
    rintro c (rfl | hc)
    · decide
    · exact isWordChar_of_isAlphanum (Naming.isAlphanum_of_isLower_or_isDigit hc)
  have hdeclared := declarations?_emit hsource (fun p hp => Model.not_mem_package_of_ofText h hp)
    fun s hs x hx c hc => hword c (((Model.selectors_of_ofText h).2 s hs x hx).2 c hc)
  have hvariants : ∀ spec ∈ m.enums, ∀ v ∈ spec.variants, Naming.IsVariantName v.toList :=
    fun spec hspec v hv => Model.isVariantName_of_ofText h hspec hv
  refine ⟨_, hdeclared, fun name v xs => ?_⟩
  have hmirrors := mirrors_ofMessage hfile hvariants (v.depth + 1) name "$" v
  exact (hmirrors xs).symm

theorem resolvable_canvas : (File.ofModel Model.canvas).Resolvable :=
  ⟨by decide +kernel, by decide +kernel⟩

theorem serialise_emit_picture :
    ∃ items, declarations? (emit Model.canvas.lock none) = some items ∧
      ∃ value, Value.ofJson Model.canvas (.message "Pixel") picture = some value ∧
        serialise items (.named "Pixel") value =
          some [7, 0, 1, (starkPrime : Int) - 2, 1, 0, 171, 1, 0, 0, 1] := by
  have hencode : encode Model.canvas starkPrime (.message "Pixel") picture =
      .ok [7, 0, 1, starkPrime - 2, 1, 0, 171, 1, 0, 0, 1] :=
    eq_ok_of_toOption (by decide +kernel)
  have hname : identifier "Pixel" = "Pixel" := by decide +kernel
  obtain ⟨items, hitems, h⟩ := serialise_emit Model.ofText_canvasText resolvable_canvas
    (fun s (hs : s ∈ (none : Option String)) => nomatch hs)
  have hvalue := (h "Pixel" picture _).1 hencode
  rw [hname] at hvalue
  exact ⟨items, hitems, hvalue⟩

end FeltRelay.Cairo
