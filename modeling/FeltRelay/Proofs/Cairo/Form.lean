import FeltRelay.Proofs.Cairo.Shape
import FeltRelay.Proofs.Codec.ByteString
import FeltRelay.Proofs.Codec.Element
import FeltRelay.Proofs.Codec.Flat.Encode

/-!
# The serialisation of each form of a type

A serialisation mirrors an emission if it gives what the emission writes and nothing if the emission
is stopped (`Mirrors`). What follows one another, or stands behind some elements, mirrors if its
parts do; so do scalars, optional values, arrays and variants.
-/

namespace FeltRelay.Cairo

open FeltRelay.Codec FeltRelay.Codec.Flat FeltRelay.Schema

variable {m : Model} {f : File} {items : List Item} {t : TypeExpr}
variable {ofMessage : String → String → Json → Emission Int}

/-- What is there, if anything, serialises to the elements of an emission that was not stopped. -/
def Mirrors {α : Type} (serialise : α → Option (List Int)) (a? : Option α) (e : Emission Int) :
    Prop :=
  ∀ xs, (∃ a, a? = some a ∧ serialise a = some xs) ↔ e.result = .ok xs

namespace Mirrors

variable {α β γ : Type} {p : α → Option (List Int)} {q : β → Option (List Int)}
variable {r : γ → Option (List Int)} {a? : Option α} {b? : Option β} {e e' : Emission Int}

theorem stop (fault : Failure) : Mirrors p none (.stop fault) := by
  intro xs
  simp

theorem write {a : α} {xs : List Int} (h : p a = some xs) : Mirrors p (some a) (.write xs) := by
  intro ys
  simp [h]

theorem map {g : α → β} (h : Mirrors p a? e) (hg : ∀ a, q (g a) = p a) : Mirrors q (a?.map g) e := by
  intro xs
  simp only [← h xs, Option.map_eq_some_iff]
  constructor
  · rintro ⟨_, ⟨a, ha, rfl⟩, hxs⟩
    exact ⟨a, ha, hg a ▸ hxs⟩
  · rintro ⟨a, ha, hxs⟩
    exact ⟨g a, ⟨a, ha, rfl⟩, (hg a).trans hxs⟩

theorem behind {g : α → β} {xs : List Int} (h : Mirrors p a? e)
    (hg : ∀ a, a? = some a → q (g a) = (p a).map (xs ++ ·)) :
    Mirrors q (a?.map g) ((Emission.write xs).followedBy fun _ => e) := by
  intro zs
  have h := fun ys => (h ys).symm
  simp only [Emission.result_write_followedBy, map_eq_ok_iff, h, Option.map_eq_some_iff]
  constructor
  · rintro ⟨_, ⟨a, ha, rfl⟩, hzs⟩
    rw [hg a ha] at hzs
    obtain ⟨ys, hys, rfl⟩ := Option.map_eq_some_iff.1 hzs
    exact ⟨ys, ⟨a, ha, hys⟩, rfl⟩
  · rintro ⟨ys, ⟨a, ha, hys⟩, rfl⟩
    exact ⟨g a, ⟨a, ha, rfl⟩, by rw [hg a ha, hys]; rfl⟩

theorem followedBy {g : α → β → γ} (h : Mirrors p a? e) (h' : Mirrors q b? e')
    (hg : ∀ a b, r (g a b) = do return (← p a) ++ (← q b)) :
    Mirrors r (do return g (← a?) (← b?)) (e.followedBy fun _ => e') := by
  have h := fun xs => (h xs).symm
  have h' := fun ys => (h' ys).symm
  intro zs
  simp only [Emission.result_followedBy_eq_ok_iff, h, h']
  constructor
  · rintro ⟨c, hc, hzs⟩
    obtain ⟨a, ha, hc⟩ := Option.bind_eq_some_iff.1 hc
    obtain ⟨b, hb, hret⟩ := Option.bind_eq_some_iff.1 hc
    cases hret
    rw [hg] at hzs
    obtain ⟨xs, hxs, hzs⟩ := Option.bind_eq_some_iff.1 hzs
    obtain ⟨ys, hys, hret⟩ := Option.bind_eq_some_iff.1 hzs
    cases hret
    exact ⟨xs, ys, ⟨a, ha, hxs⟩, ⟨b, hb, hys⟩, rfl⟩
  · rintro ⟨xs, ys, ⟨a, ha, hxs⟩, ⟨b, hb, hys⟩, rfl⟩
    exact ⟨g a b, by rw [ha, hb]; rfl, by rw [hg, hxs, hys]; rfl⟩

end Mirrors

/-! ### Scalars -/

theorem mirrors_byteString {s : Scalar} (hs : s.isByteString = true)
    (hshape : shape? items t = builtins.lookup (scalarName s)) (path : String) (v : Json) :
    Mirrors (serialise items t) (Value.ofScalar s v)
      (encodeTy m starkPrime ofMessage (.scalar s) path v) := by
  have hvalue : Value.ofScalar s v = (bytesOfJson s "$" v).toOption.map .bytes := by
    rcases kind_of_isByteString hs with rfl | rfl <;> rfl
  have hbytes : shape? items t = some .byteArray := by
    rw [hshape]
    rcases kind_of_isByteString hs with rfl | rfl <;> rfl
  have hserialise : ∀ bytes, serialise items t (.bytes bytes) =
      some ((packBytes bytes).map Int.ofNat) := by
    intro bytes
    rw [serialise, hbytes, if_pos rfl, Words.elements_ofBytes]
  intro xs
  -- The value is read at the root and the emission at its path: the bytes are the same.
  rw [encodeTy_byteString hs, map_eq_ok_iff, hvalue]
  constructor
  · rintro ⟨_, hvalue, hxs⟩
    obtain ⟨bytes, hread, rfl⟩ := Option.map_eq_some_iff.1 hvalue
    rw [hserialise] at hxs
    exact ⟨bytes, bytesOfJson_path (eq_ok_of_toOption hread) path, Option.some.inj hxs⟩
  · rintro ⟨bytes, hread, rfl⟩
    rw [bytesOfJson_path hread "$"]
    exact ⟨.bytes bytes, rfl, hserialise bytes⟩

/-- The bounds of an integer type, and the elements of the integers within. -/
theorem exists_integer {s : Scalar} (hs : s.isByteString = false) (hb : s ≠ .bool) :
    ∃ least greatest, builtins.lookup (scalarName s) = some (.integer least greatest) ∧
      ∀ path v e, toElement starkPrime s path v = .ok e ↔
        ∃ i, readInteger path v = .ok i ∧ (least ≤ i ∧ i ≤ greatest) ∧ i % starkPrime = e := by
  by_cases hf : s = .felt
  · -- A field element is not reduced, so its range is that of the residues.
    subst hf
    refine ⟨0, starkPrime - 1, rfl, fun path v e => ?_⟩
    rw [toElement, bind_eq_ok_iff]
    refine exists_congr fun i => and_congr_right fun _ => ?_
    by_cases hrange : 0 ≤ i ∧ i < starkPrime
    · rw [if_pos hrange, Int.emod_eq_of_lt hrange.1 hrange.2]
      have hle : i ≤ starkPrime - 1 := by omega
      simp [hrange.1, hle]
    · rw [if_neg hrange]
      constructor
      · intro h
        cases h
      · rintro ⟨⟨h0, hle⟩, -⟩
        exact absurd ⟨h0, by omega⟩ hrange
  · have hint := isInteger_of hs hb hf
    refine ⟨s.least, s.greatest, ?_, fun path v e => ?_⟩
    · cases s with
      | signed w => cases w <;> rfl
      | unsigned w => cases w <;> rfl
      | _ => cases hint
    · rw [toElement_integer hint (by decide)]
      refine exists_congr fun i => ?_
      rw [Int.fmod_eq_emod_of_nonneg i (by decide), and_assoc]

theorem mirrors_integer {s : Scalar} (hs : s.isByteString = false) (hb : s ≠ .bool)
    (hshape : shape? items t = builtins.lookup (scalarName s)) (path : String) (v : Json) :
    Mirrors (serialise items t) (Value.ofScalar s v)
      (encodeTy m starkPrime ofMessage (.scalar s) path v) := by
  obtain ⟨least, greatest, hlookup, helement⟩ := exists_integer hs hb
  have hvalue : Value.ofScalar s v = (readInteger "$" v).toOption.map .int := by
    cases s with
    | bool => exact absurd rfl hb
    | text => cases hs
    | bytes => cases hs
    | _ => rfl
  have hserialise : ∀ i, serialise items t (.int i) =
      if least ≤ i ∧ i ≤ greatest then some [i % starkPrime] else none := by
    intro i
    rw [serialise, hshape, hlookup]
  intro xs
  rw [encodeTy_scalar hs, map_eq_ok_iff, hvalue]
  simp only [helement]
  constructor
  · rintro ⟨_, hvalue, hxs⟩
    obtain ⟨i, hread, rfl⟩ := Option.map_eq_some_iff.1 hvalue
    rw [hserialise] at hxs
    split at hxs
    · rename_i hrange
      exact ⟨_, ⟨i, readInteger_path (eq_ok_of_toOption hread) path, hrange, rfl⟩,
        Option.some.inj hxs⟩
    · cases hxs
  · rintro ⟨_, ⟨i, hread, hrange, rfl⟩, rfl⟩
    rw [readInteger_path hread "$"]
    exact ⟨.int i, rfl, by rw [hserialise, if_pos hrange]⟩

theorem mirrors_bool (hshape : shape? items t = some .bool) (path : String) (v : Json) :
    Mirrors (serialise items t) (Value.ofScalar .bool v)
      (encodeTy m starkPrime ofMessage (.scalar .bool) path v) := by
  cases v with
  | bool b =>
    apply Mirrors.write
    rw [serialise, hshape, if_pos rfl]
  | _ => exact .stop _

theorem mirrors_scalar (s : Scalar) (hshape : shape? items t = builtins.lookup (scalarName s))
    (path : String) (v : Json) :
    Mirrors (serialise items t) (Value.ofScalar s v)
      (encodeTy m starkPrime ofMessage (.scalar s) path v) := by
  by_cases hs : s.isByteString = true
  · exact mirrors_byteString hs hshape path v
  by_cases hb : s = .bool
  · subst hb
    exact mirrors_bool hshape path v
  · exact mirrors_integer (Bool.eq_false_of_not_eq_true hs) hb hshape path v

/-! ### Optionals and arrays -/

theorem serialise_absent (h : f.Resolvable) (hmaybe : f.maybe = true) (t : TypeExpr) :
    serialise f.items (.generic "Maybe" t) Value.absent = some [0] := by
  rw [Value.absent, serialise, File.shape?_maybe h hmaybe]
  simp [List.findIdx?_cons, serialise_unit]

theorem serialise_present (h : f.Resolvable) (hmaybe : f.maybe = true) (t : TypeExpr)
    (value : Value) :
    serialise f.items (.generic "Maybe" t) value.present =
      (serialise f.items t value).map (1 :: ·) := by
  rw [Value.present, serialise, File.shape?_maybe h hmaybe]
  simp [List.findIdx?_cons]

theorem mirrors_array (h : f.Resolvable) {value : Json → Option Value} {vs : List Json}
    {e : Emission Int} (hvs : Mirrors (serialiseAll f.items t) (vs.mapM value) e) :
    Mirrors (serialise f.items (.generic "Array" t)) ((vs.mapM value).map .array)
      ((Emission.write [(vs.length : Int)]).followedBy fun _ => e) := by
  refine hvs.behind fun values hvalues => ?_
  rw [serialise, File.shape?_array h, length_of_mapM hvalues]
  rfl

theorem mirrors_items {value : Json → Option Value} {encode : String → Json → Emission Int}
    (h : ∀ path v, Mirrors (serialise items t) (value v) (encode path v)) (path : String) (i : Nat)
    (vs : List Json) :
    Mirrors (serialiseAll items t) (vs.mapM value) (encodeItems encode path i vs) := by
  induction vs generalizing i with
  | nil => exact .write rfl
  | cons v vs ih =>
    rw [List.mapM_cons, encodeItems]
    refine (h _ v).followedBy (ih _) fun w ws => ?_
    rw [serialiseAll]

/-! ### Variants -/

theorem findIdx?_congr {α : Type} {p q : α → Bool} {xs : List α} (h : ∀ x ∈ xs, p x = q x) :
    xs.findIdx? p = xs.findIdx? q := by
  induction xs with
  | nil => rfl
  | cons x xs ih =>
    rw [List.findIdx?_cons, List.findIdx?_cons, h x (List.mem_cons_self ..),
      ih fun y hy => h y (List.mem_cons_of_mem _ hy)]

/-- A variant serialises to its index, as its identifier stands for no other variant. -/
theorem serialise_variant {variants : List String} {v : String} (hv : v ∈ variants)
    (hinj : ∀ u ∈ variants, identifier u = identifier v → u = v)
    (hshape : shape? items t =
      some (.enum ((variants.map identifier).map fun name => (name, .unit)))) :
    serialise items t (.variant (identifier v) .unit) =
      (variants.findIdx? (· = v)).map fun (i : Nat) => [(i : Int)] := by
  -- The reader goes by identifiers and the codec by variants: both find the same place.
  obtain ⟨declared, hdeclared⟩ : ∃ declared : List (String × TypeExpr),
    declared = (variants.map identifier).map fun name => (name, .unit) := ⟨_, rfl⟩
  have hindex : declared.findIdx? (·.1 = identifier v) = variants.findIdx? (· = v) := by
    rw [hdeclared, List.findIdx?_map, List.findIdx?_map]
    refine findIdx?_congr fun u hu => ?_
    simpa using ⟨hinj u hu, congrArg identifier⟩
  have hmem : (identifier v, .unit) ∈ declared := by
    rw [hdeclared]
    exact List.mem_map_of_mem (List.mem_map_of_mem hv)
  obtain ⟨found, hfound⟩ := Option.isSome_iff_exists.1
    (List.find?_isSome.2 ⟨_, hmem, decide_eq_true rfl⟩ :
      (declared.find? (·.1 = identifier v)).isSome)
  have hunit : found.2 = .unit := by
    have hin := List.mem_of_find?_eq_some hfound
    rw [hdeclared] at hin
    obtain ⟨name, -, rfl⟩ := List.mem_map.1 hin
    rfl
  rw [← hdeclared] at hshape
  rw [serialise, hshape]
  dsimp only
  rw [hindex, hfound]
  cases variants.findIdx? (· = v) with
  | none => rfl
  | some i => simp [hunit, serialise_unit]

end FeltRelay.Cairo
