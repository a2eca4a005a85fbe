import FeltRelay.Proofs.Schema.Definitions.Token
import FeltRelay.Proofs.Schema.Naming
import FeltRelay.Proofs.Schema.Text
import FeltRelay.Proofs.Text.Utf8

/-!
# Unambiguous models

Routing takes the first method of a selector, and coding the first field or variant of a name. In an
unambiguous model no second one is hidden behind it. Each definitions text that is accepted gives
such a model, with selectors that fit one field element (`wellFormed_of_ofText`).
-/

namespace FeltRelay.Schema

open FeltRelay.Text

/-- A text that one field element holds. -/
structure IsShortString (s : String) : Prop where
  length : (Utf8.encode s).length ≤ Naming.maxSelectorBytes
  ascii : ∀ b ∈ Utf8.encode s, b.toNat < 128

theorem isShortString_iff {s : String} :
    IsShortString s ↔ (Utf8.encode s).length ≤ Naming.maxSelectorBytes ∧
      (Utf8.encode s).all (·.toNat < 128) = true := by
  rw [List.all_eq_true]
  exact ⟨fun h => ⟨h.1, fun b hb => decide_eq_true (h.2 b hb)⟩,
    fun h => ⟨h.1, fun b hb => of_decide_eq_true (h.2 b hb)⟩⟩

instance (s : String) : Decidable (IsShortString s) := decidable_of_iff' _ isShortString_iff

/-- An ASCII text has one byte for each character. -/
theorem encode_of_ascii {s : String} (h : ∀ c ∈ s.toList, c.toNat < 128) :
    Utf8.encode s = s.toList.map fun c => .ofNat c.toNat := by
  rw [Utf8.encode, List.map_eq_flatMap]
  refine List.flatMap_congr fun c hc => ?_
  rw [Utf8.encodeChar, if_pos (h c hc)]

theorem isShortString_of_ascii {s : String} (h : ∀ c ∈ s.toList, c.toNat < 128)
    (hlen : s.length ≤ Naming.maxSelectorBytes) : IsShortString s := by
  have hbytes := encode_of_ascii h
  refine ⟨?_, fun b hb => ?_⟩
  · rw [hbytes, List.length_map, String.length_toList]
    exact hlen
  · rw [hbytes] at hb
    obtain ⟨c, hc, rfl⟩ := List.mem_map.1 hb
    have hlt := h c hc
    rw [Utf8.toNat_ofNat_of_lt (by omega)]
    exact hlt

namespace Model

variable {m : Model}

/-- No name, variant or selector hides another one, and selectors are short strings. -/
structure Unambiguous (m : Model) : Prop extends Distinct m where
  types : ∀ name ∈ m.messages.map (·.name), name ∉ m.enums.map (·.name)
  selectors : (m.methods.map (·.2.selector)).Nodup
  short : ∀ e ∈ m.methods, IsShortString e.2.selector

theorem mem_methods {e : String × Method} :
    e ∈ m.methods ↔ ∃ s ∈ m.services, e.2 ∈ s.methods ∧ e.1 = s.name := by
  rw [methods, List.mem_flatMap]
  constructor
  · rintro ⟨s, hs, he⟩
    obtain ⟨x, hx, rfl⟩ := List.mem_map.1 he
    exact ⟨s, hs, hx, rfl⟩
  · rintro ⟨s, hs, hx, hname⟩
    exact ⟨s, hs, List.mem_map.2 ⟨e.2, hx, Prod.ext hname.symm rfl⟩⟩

theorem selectors_methods (m : Model) :
    m.methods.map (·.2.selector) = (m.services.flatMap (·.methods)).map (·.selector) := by
  rw [methods, List.map_flatMap, List.map_flatMap]
  refine List.flatMap_congr fun s _ => ?_
  rw [List.map_map]
  rfl

/-! ### Selectors of a definitions text -/

open Definitions

theorem toNat_lt_of_isNameChar {c : Char} (h : IsNameChar c) : c.toNat < 128 := by
  rcases h with h | rfl
  · rw [isNamePart, Bool.or_eq_true, decide_eq_true_eq] at h
    rcases h with h | rfl
    · exact Naming.lt_of_isAlphanum h
    · decide
  · decide

/-- The names of a definitions text are ASCII. -/
theorem ascii_of_named {text : String} {tokens : List Token} (h : tokenize text = .ok tokens)
    {name : String} (hname : Named tokens name) : ∀ c ∈ name.toList, c.toNat < 128 := by
  obtain ⟨t, ht, hkind, rfl⟩ := hname
  exact fun c hc => toNat_lt_of_isNameChar (isNameChar_of_mem_tokenize h ht hkind c hc)

/-- Selectors are distinct across all services, short, and made of small letters, digits and
underscores. -/
theorem selectors_of_ofText {text : String} (h : ofText text = .ok m) :
    (m.methods.map (·.2.selector)).Nodup ∧ ∀ s ∈ m.services, ∀ x ∈ s.methods,
      x.selector.length ≤ Naming.maxSelectorBytes ∧
        ∀ c ∈ x.selector.toList, c = '_' ∨ c.isLower = true ∨ c.isDigit = true := by
  obtain ⟨d, hd, hm⟩ := bind_eq_ok_iff.1 h
  obtain ⟨tokens, htokens, hd⟩ := bind_eq_ok_iff.1 hd
  obtain ⟨names, -, hmade⟩ := madeOf_of_ofDeclarations hm
  refine ⟨by rw [selectors_methods]; exact hmade.selectors, fun s hs x hx => ?_⟩
  obtain ⟨sd, hsd, hof⟩ := exists_of_forall₂ hmade.services hs
  obtain ⟨xd, hxd, hx⟩ := exists_of_forall₂ hof.methods hx
  have hnamed : Named tokens xd.name := (writtenIn_of_ofTokens hd).methods sd hsd xd hxd
  refine ⟨hx.length, fun c hc => ?_⟩
  rw [hx.selector] at hc
  exact Naming.of_mem_snake (ascii_of_named htokens hnamed) hc

theorem isShortString_of_ofText {text : String} (h : ofText text = .ok m) {e : String × Method}
    (he : e ∈ m.methods) : IsShortString e.2.selector := by
  obtain ⟨s, hs, hx, -⟩ := mem_methods.1 he
  obtain ⟨hlen, hchars⟩ := (selectors_of_ofText h).2 s hs e.2 hx
  refine isShortString_of_ascii (fun c hc => ?_) hlen
  rcases hchars c hc with rfl | hc
  · decide
  · exact Naming.lt_of_isAlphanum (Naming.isAlphanum_of_isLower_or_isDigit hc)

/-! ### Other names of a definitions text -/

theorem isVariantName_of_ofText {text : String} (h : ofText text = .ok m) {spec : Enumeration}
    (hspec : spec ∈ m.enums) {v : String} (hv : v ∈ spec.variants) :
    Naming.IsVariantName v.toList := by
  obtain ⟨d, hd, hm⟩ := bind_eq_ok_iff.1 h
  obtain ⟨tokens, htokens, hd⟩ := bind_eq_ok_iff.1 hd
  obtain ⟨e, he, hof⟩ := exists_enumOf hm hspec
  obtain ⟨x, hx, heq⟩ := hof.named v hv
  have hnamed : Named tokens x.1 := ((writtenIn_of_ofTokens hd).enums e he).2 x hx
  have hcamel := Naming.isVariantName_upperCamel (ascii_of_named htokens hnamed)
  rw [heq, variantName]
  exact Naming.isVariantName_stripEnumName hcamel

/-- The name of a package stands on one line. -/
theorem not_mem_package_of_ofText {text : String} (h : ofText text = .ok m) {p : String}
    (hp : p ∈ m.package) : '\n' ∉ p.toList := by
  obtain ⟨d, hd, hm⟩ := bind_eq_ok_iff.1 h
  obtain ⟨tokens, htokens, hd⟩ := bind_eq_ok_iff.1 hd
  rw [package_of_ofDeclarations hm] at hp
  obtain ⟨name, ⟨t, ht, hkind, rfl⟩, rfl⟩ := (writtenIn_of_ofTokens hd).package p hp
  rw [String.toList_ofList]
  intro hmem
  have hchar := isNameChar_of_mem_tokenize htokens ht hkind '\n' (List.dropWhile_subset _ hmem)
  exact absurd hchar (by unfold IsNameChar; decide)

/-! ### Models -/

theorem unambiguous_of_ofText {text : String} (h : ofText text = .ok m) : m.Unambiguous := by
  obtain ⟨d, -, hm⟩ := bind_eq_ok_iff.1 h
  exact ⟨distinct_of_ofText h, disjoint_of_ofDeclarations hm, (selectors_of_ofText h).1,
    fun e he => isShortString_of_ofText h he⟩

/-- The model of a definitions text is unambiguous, its fields and methods refer to declarations of
it, and no message contains itself through plain message fields. -/
theorem wellFormed_of_ofText {text : String} (h : ofText text = .ok m) :
    m.Unambiguous ∧ m.Closed ∧ (∀ e ∈ m.methods,
      (m.message? e.2.request).isSome ∧ (m.message? e.2.response).isSome) ∧ m.Acyclic := by
  have hsound := sound_of_ofText h
  refine ⟨unambiguous_of_ofText h, hsound.closed, fun e he => ?_,
    checkContainment_eq_ok_iff.1 hsound.contained⟩
  obtain ⟨s, hs, hx, -⟩ := mem_methods.1 he
  exact hsound.requests s hs e.2 hx

/-- The text of `canvas`, whose message of pixels contains itself only through an array. -/
theorem wellFormed_canvas : ofText canvasText = .ok canvas ∧ canvas.Unambiguous ∧ canvas.Closed ∧
    (∀ e ∈ canvas.methods,
      (canvas.message? e.2.request).isSome ∧ (canvas.message? e.2.response).isSome) ∧
    canvas.Acyclic :=
  ⟨ofText_canvasText, wellFormed_of_ofText ofText_canvasText⟩

end Model

end FeltRelay.Schema
