import FeltRelay.Proofs.Schema.Text

/-!
# Names of services

The name of a service is compared with the names of services before it and with the full names of
messages and enumerations, which have dots where declarations are nested. In the model these names
have lost their dots, so a service can have the name of a nested message or enumeration there, and
of no other one (`serviceNames_of_ofText`).
-/

namespace FeltRelay.Schema

namespace Definitions

variable {names : Names}

/-- The full names of the declared messages and enumerations. -/
def Declarations.typeNames (d : Declarations) : List String :=
  d.messages.map (·.fullName) ++ d.enums.map (·.fullName)

theorem flattened_eq_self {n : String} (h : '.' ∉ n.toList) : flattened n = n := by
  have hfilter : n.toList.filter (· ≠ '.') = n.toList := by
    rw [List.filter_eq_self]
    intro c hc
    exact decide_eq_true fun heq => h (heq ▸ hc)
  rw [flattened, hfilter, String.ofList_toList]

theorem has_declared_iff {d : Declarations} (h : Names.ofDeclarations d = .ok names) {n : String} :
    Entries.has n names.declared = true ↔ n ∈ d.typeNames := by
  have hkeys : names.declared.map (·.1) = d.typeNames := by
    rw [(Model.of_namesOfDeclarations h).1, List.map_append, List.map_map, List.map_map]
    rfl
  rw [← hkeys, Entries.has, List.lookup_isSome_iff, List.mem_map]
  refine exists_congr fun e => and_congr_right fun _ => ?_
  rw [beq_iff_eq, eq_comm]

/-! ### Services behind others -/

/-- Services behind others are made as if those were made before. -/
theorem exists_servicesOf_append {selectors : List String} {services out : List Service}
    {before : List ServiceDecl} (h : servicesOf names selectors services before = .ok out) :
    ∃ selectors', ∀ after,
      servicesOf names selectors services (before ++ after) =
        servicesOf names selectors' out after := by
  induction before generalizing selectors services with
  | nil =>
    cases h
    exact ⟨selectors, fun _ => rfl⟩
  | cons s before ih =>
    rw [servicesOf] at h
    split at h
    · cases h
    rename_i hfree
    dsimp only at h
    obtain ⟨r, hmethods, h⟩ := bind_eq_ok_iff.1 h
    obtain ⟨selectors', hafter⟩ := ih h
    refine ⟨selectors', fun after => ?_⟩
    rw [List.cons_append, servicesOf, if_neg hfree]
    dsimp only
    rw [hmethods, ok_bind]
    exact hafter after

theorem not_has_of_servicesOf {selectors : List String} {services out : List Service}
    {decls : List ServiceDecl} (h : servicesOf names selectors services decls = .ok out)
    {s : ServiceDecl} (hs : s ∈ decls) : ¬Entries.has s.name names.declared = true := by
  induction decls generalizing selectors services with
  | nil => cases hs
  | cons e decls ih =>
    rw [servicesOf] at h
    split at h
    · cases h
    rename_i hfree
    dsimp only at h
    obtain ⟨r, -, h⟩ := bind_eq_ok_iff.1 h
    rcases List.mem_cons.1 hs with rfl | hs
    · intro hhas
      exact hfree (by rw [hhas, Bool.or_true])
    · exact ih h hs

theorem servicesOf_taken {selectors : List String} {services : List Service} {s : ServiceDecl}
    (h : s.name ∈ services.map (·.name) ∨ Entries.has s.name names.declared = true)
    (rest : List ServiceDecl) :
    servicesOf names selectors services (s :: rest) = .error (.duplicateType s.name) := by
  have htaken : (services.any (·.name = s.name) || Entries.has s.name names.declared) = true := by
    simpa using h
  rw [servicesOf, if_pos htaken]
  rfl

theorem servicesOf_free {selectors : List String} {services : List Service} {n : String}
    (hnew : n ∉ services.map (·.name)) (hfree : ¬Entries.has n names.declared = true) :
    servicesOf names selectors services [⟨n, []⟩] = .ok (services ++ [⟨n, []⟩]) := by
  have htaken : ¬(services.any (·.name = n) || Entries.has n names.declared) = true := by
    simpa using And.intro (by simpa using hnew) hfree
  rw [servicesOf, if_neg htaken]
  rfl

end Definitions

namespace Model

open Definitions

variable {m : Model} {text : String}

/-- The names of the messages and enumerations of a model. -/
def typeNames (m : Model) : List String := m.messages.map (·.name) ++ m.enums.map (·.name)

theorem MadeOf.typeNames {d : Declarations} {names : Names} (h : m.MadeOf d names) :
    m.typeNames = d.typeNames.map flattened := by
  rw [Model.typeNames, h.names.1, h.names.2, Declarations.typeNames, List.map_append, List.map_map,
    List.map_map]
  rfl

/-- The other parts of a model do not depend on the services. -/
theorem exists_names_of_ofDeclarations {d : Declarations} (h : ofDeclarations d = .ok m) :
    ∃ names, Names.ofDeclarations d = .ok names ∧
      servicesOf names [] [] d.services = .ok m.services ∧
      ∀ services, ofDeclarations { d with services } =
        (servicesOf names [] [] services).map fun services => { m with services } := by
  obtain ⟨names, hnames, h⟩ := bind_eq_ok_iff.1 h
  obtain ⟨messages, hmessages, h⟩ := bind_eq_ok_iff.1 h
  obtain ⟨enums, henums, h⟩ := bind_eq_ok_iff.1 h
  obtain ⟨own, hown, h⟩ := bind_eq_ok_iff.1 h
  obtain ⟨_, hcontained, hret⟩ := bind_eq_ok_iff.1 h
  cases hret
  refine ⟨names, hnames, hown, fun services => ?_⟩
  have hsame : Names.ofDeclarations { d with services } = .ok names := hnames
  rw [ofDeclarations, hsame, ok_bind, hmessages, ok_bind, henums, ok_bind]
  cases servicesOf names [] [] services with
  | error f => rfl
  | ok made =>
    have hacyclic := checkContainment_eq_ok_iff.1 hcontained
    have hcontained' : checkContainment ⟨d.package, messages, enums, made⟩ = .ok () :=
      checkContainment_eq_ok_iff.2 hacyclic
    rw [ok_bind]
    dsimp only
    rw [hcontained']
    rfl

/-- The services of an accepted text have distinct names, and no full name of a message or an
enumeration. In the model such a name can be theirs, exactly if it had a dot that it has lost. A
further service is refused as a duplicate under the name of another service or the full name of a
message or an enumeration; under any other name it is accepted, if it has no methods. -/
theorem serviceNames_of_ofText (h : ofText text = .ok m) :
    (m.services.map (·.name)).Nodup ∧ ∃ d, Declarations.ofText text = .ok d ∧
      (∀ s ∈ m.services, s.name ∉ d.typeNames ∧
        (s.name ∈ m.typeNames ↔ ∃ n ∈ d.typeNames, '.' ∈ n.toList ∧ flattened n = s.name)) ∧
      (∀ s rest, s.name ∈ m.services.map (·.name) ∨ s.name ∈ d.typeNames →
        ofDeclarations { d with services := d.services ++ s :: rest } =
          .error (.duplicateType s.name)) ∧
      ∀ n, n ∉ m.services.map (·.name) → n ∉ d.typeNames →
        ofDeclarations { d with services := d.services ++ [⟨n, []⟩] } =
          .ok { m with services := m.services ++ [⟨n, []⟩] } := by
  obtain ⟨d, hd, hm⟩ := bind_eq_ok_iff.1 h
  obtain ⟨names, hnames, hmade⟩ := madeOf_of_ofDeclarations hm
  obtain ⟨names', hnames', hown, hwith⟩ := exists_names_of_ofDeclarations hm
  obtain rfl : names' = names := Except.ok.inj (hnames'.symm.trans hnames)
  obtain ⟨selectors, hbehind⟩ := exists_servicesOf_append hown
  refine ⟨hmade.nodup, d, hd, fun s hs => ?_, fun s rest hs => ?_, fun n hnew hfree => ?_⟩
  · have hfree : s.name ∉ d.typeNames := by
      obtain ⟨e, he, hof⟩ := exists_of_forall₂ hmade.services hs
      rw [hof.name, ← has_declared_iff hnames]
      exact not_has_of_servicesOf hown he
    refine ⟨hfree, ?_⟩
    rw [hmade.typeNames, List.mem_map]
    constructor
    · rintro ⟨n, hn, heq⟩
      refine ⟨n, hn, by_contra fun hdot => ?_, heq⟩
      rw [flattened_eq_self hdot] at heq
      exact hfree (heq ▸ hn)
    · rintro ⟨n, hn, -, heq⟩
      exact ⟨n, hn, heq⟩
  · rw [hwith, hbehind, servicesOf_taken (hs.imp_right (has_declared_iff hnames).2)]
    rfl
  · rw [hwith, hbehind, servicesOf_free hnew (mt (has_declared_iff hnames).1 hfree)]
    rfl

theorem serviceNames_canvas : ofText canvasText = .ok canvas ∧ ∃ d,
    Declarations.ofText canvasText = .ok d ∧ "Canvas" ∉ d.typeNames ∧
      ofDeclarations { d with services := d.services ++ [⟨"Canvas", []⟩] } =
        .error (.duplicateType "Canvas") := by
  obtain ⟨-, d, hd, hnames, hrefused, -⟩ := serviceNames_of_ofText ofText_canvasText
  obtain ⟨hfree, -⟩ := hnames ⟨"Canvas", _⟩ (List.mem_singleton_self _)
  exact ⟨ofText_canvasText, d, hd, hfree, hrefused ⟨"Canvas", []⟩ [] (.inl (by decide))⟩

/-- A service behind a nested message whose names together are its own. -/
def eclipsedText : String :=
  "message Outer \x7b message Inner \x7b u8 a = 1; \x7d \x7d
   service OuterInner \x7b rpc F (Outer) returns (Outer); \x7d"

/-- The model of `eclipsedText`. -/
def eclipsed : Model where
  package := none
  messages := [⟨"Outer", []⟩, ⟨"OuterInner", [⟨"a", .scalar (.unsigned .w8)⟩]⟩]
  enums := []
  services := [⟨"OuterInner", [⟨"F", "f", "f", "Outer", "Outer"⟩]⟩]

/-- The service has the name of a message. -/
theorem serviceNames_nested : ofText eclipsedText = .ok eclipsed ∧
    "OuterInner" ∈ eclipsed.services.map (·.name) ∧ "OuterInner" ∈ eclipsed.typeNames := by
  refine ⟨?_, by decide, by decide⟩
  rw [ofText, Declarations.ofText, tokenize, eclipsedText, String.toList_ofList]
  exact eq_ok_of_toOption (by decide +kernel)

end Model

end FeltRelay.Schema
