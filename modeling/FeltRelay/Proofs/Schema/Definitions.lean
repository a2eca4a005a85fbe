import FeltRelay.Proofs.Entries
import FeltRelay.Proofs.Schema.Definitions.Grammar
import FeltRelay.Proofs.Schema.Definitions.Made
import FeltRelay.Proofs.Schema.WellFormed

/-!
# Models of definitions

What a definitions text that is accepted guarantees of its model: references are resolved to
declarations (`sound_of_ofText`), names within a declaration are distinct (`distinct_of_ofText`), and
no label makes an optional of an optional (`singlyOptional_of_ofText`).
-/

namespace FeltRelay.Schema

namespace Definitions

/-! ### Names -/

theorem eq_append_of_add {names : List (String × Declared)} {fullName : String} {d : Declared}
    {names' : List (String × Declared)} (h : Names.add names fullName d = .ok names') :
    names' = names ++ [(fullName, d)] ∧ flattened fullName ∉ names.map (flattened ·.1) := by
  rw [Names.add] at h
  split at h
  · cases h
  · rename_i hfree
    cases h
    -- Equal names are also equal without their dots.
    have hflat : ¬names.any (flattened ·.1 = flattened fullName) = true := by
      intro hany
      obtain ⟨e, he, heq⟩ := List.any_eq_true.1 hany
      exact hfree (List.any_eq_true.2 ⟨e, he, by rw [heq, Bool.or_true]⟩)
    exact ⟨rfl, not_mem_map_of_any hflat⟩

/-- Names that were added are the names in order, all different without their dots. -/
theorem eq_append_of_addAll {all names names' : List (String × Declared)}
    (h : all.foldlM (fun acc e => Names.add acc e.1 e.2) names = .ok names')
    (hnodup : (names.map (flattened ·.1)).Nodup) :
    names' = names ++ all ∧ (names'.map (flattened ·.1)).Nodup := by
  induction all generalizing names with
  | nil =>
    cases h
    exact ⟨(List.append_nil _).symm, hnodup⟩
  | cons e all ih =>
    rw [List.foldlM_cons] at h
    obtain ⟨names₁, hadd, h⟩ := bind_eq_ok_iff.1 h
    obtain ⟨rfl, hfresh⟩ := eq_append_of_add hadd
    obtain ⟨rfl, hnodup'⟩ := ih h (nodup_map_append hnodup hfresh)
    exact ⟨by simp, hnodup'⟩

/-! ### References -/

/-- What a reference is resolved to stands for itself or for a declaration. -/
inductive Resolved (names : Names) : Ty → Prop
  | scalar (s : Scalar) : Resolved names (.scalar s)
  | message {fullName : String} (h : (fullName, .message) ∈ names.declared) :
      Resolved names (.message (flattened fullName))
  | enum {fullName : String} (h : (fullName, .enum) ∈ names.declared) :
      Resolved names (.enum (flattened fullName))

theorem resolved_of_target? {names : Names} {scope : List String} {reference : String} {t : Ty}
    (h : names.target? scope reference = some t) : Resolved names t := by
  unfold Names.target? at h
  split at h
  · cases h
    exact .scalar _
  · obtain ⟨⟨d, flat⟩, hfound, rfl⟩ := Option.map_eq_some_iff.1 h
    obtain ⟨around, -, hmap⟩ := List.exists_of_findSome?_eq_some hfound
    obtain ⟨d', hlookup, hpair⟩ := Option.map_eq_some_iff.1 hmap
    cases hpair
    cases d with
    | message => exact .message (Entries.mem_of_lookup hlookup)
    | enum => exact .enum (Entries.mem_of_lookup hlookup)

theorem MessageOf.resolved {names : Names} {d : MessageDecl} {spec : Message}
    (h : MessageOf names d spec) {f : Field} (hf : f ∈ spec.fields) :
    ∃ label t, Resolved names t ∧ f.type = labelled label t := by
  obtain ⟨e, -, t, ht, rfl⟩ := exists_of_forall₂ h.fields hf
  exact ⟨e.label, t, resolved_of_target? ht, rfl⟩

end Definitions

namespace Model

open Definitions

variable {m : Model}

/-- A resolved reference is declared in a model that has all names. -/
theorem declared_of_resolved {d : Declarations} {names : Names}
    (hnames : names.declared = d.messages.map (fun x => (x.fullName, Declared.message)) ++
      d.enums.map (fun e => (e.fullName, Declared.enum)))
    (hmessages : m.messages.map (·.name) = d.messages.map (flattened ·.fullName))
    (henums : m.enums.map (·.name) = d.enums.map (flattened ·.fullName)) {t : Ty}
    (h : Resolved names t) : t.Declared m := by
  cases h with
  | scalar s => trivial
  | message hn =>
    rw [hnames] at hn
    rcases List.mem_append.1 hn with hn | hn
    · obtain ⟨x, hx, heq⟩ := List.mem_map.1 hn
      refine isSome_message?_iff.2 ?_
      rw [hmessages, ← (Prod.mk.inj heq).1]
      exact List.mem_map.2 ⟨x, hx, rfl⟩
    · obtain ⟨x, -, heq⟩ := List.mem_map.1 hn
      exact Declared.noConfusion (Prod.mk.inj heq).2
  | enum hn =>
    rw [hnames] at hn
    rcases List.mem_append.1 hn with hn | hn
    · obtain ⟨x, -, heq⟩ := List.mem_map.1 hn
      exact Declared.noConfusion (Prod.mk.inj heq).2
    · obtain ⟨x, hx, heq⟩ := List.mem_map.1 hn
      refine isSome_enum?_iff.2 ?_
      rw [henums, ← (Prod.mk.inj heq).1]
      exact List.mem_map.2 ⟨x, hx, rfl⟩

theorem declared_labelled {t : Ty} (h : t.Declared m) (label : Option Label) :
    (labelled label t).Declared m := by
  rcases label with _ | _ | _ | _ <;> exact h

theorem singlyOptional_labelled {names : Names} {t : Ty} (h : Resolved names t)
    (label : Option Label) : (labelled label t).SinglyOptional := by
  have key : t.isOptional = false ∧ t.SinglyOptional := by
    cases h <;> exact ⟨rfl, trivial⟩
  rcases label with _ | _ | _ | _
  · exact key.2
  · exact key
  · exact key.2
  · exact key.2

/-- The full names of all declarations are found under what they declare, and none has the name of
another one without its dots. -/
theorem of_namesOfDeclarations {d : Declarations} {names : Names}
    (h : Names.ofDeclarations d = .ok names) :
    names.declared = d.messages.map (fun x => (x.fullName, Declared.message)) ++
        d.enums.map (fun e => (e.fullName, Declared.enum)) ∧
      (d.messages.map (flattened ·.fullName)).Nodup ∧
      (d.enums.map (flattened ·.fullName)).Nodup ∧
      ∀ a ∈ d.messages.map (flattened ·.fullName), ∀ b ∈ d.enums.map (flattened ·.fullName),
        a ≠ b := by
  obtain ⟨declared, hadd, hret⟩ := bind_eq_ok_iff.1 h
  cases hret
  obtain ⟨rfl, hnodup⟩ := eq_append_of_addAll hadd List.nodup_nil
  rw [List.nil_append, List.map_append, List.map_map, List.map_map] at hnodup
  exact ⟨rfl, List.nodup_append.1 hnodup⟩

/-- The parts of a model and the declarations that they are made of. -/
structure MadeOf (m : Model) (d : Declarations) (names : Names) : Prop where
  messages : List.Forall₂ (MessageOf names) d.messages m.messages
  enums : List.Forall₂ EnumOf d.enums m.enums
  services : List.Forall₂ (ServiceOf names) d.services m.services
  nodup : (m.services.map (·.name)).Nodup
  selectors : ((m.services.flatMap (·.methods)).map (·.selector)).Nodup
  contained : m.checkContainment = .ok ()

theorem madeOf_of_ofDeclarations {d : Declarations} (h : ofDeclarations d = .ok m) :
    ∃ names, Names.ofDeclarations d = .ok names ∧ m.MadeOf d names := by
  obtain ⟨names, hnames, h⟩ := bind_eq_ok_iff.1 h
  obtain ⟨messages, hmessages, h⟩ := bind_eq_ok_iff.1 h
  obtain ⟨enums, henums, h⟩ := bind_eq_ok_iff.1 h
  obtain ⟨services, hservices, h⟩ := bind_eq_ok_iff.1 h
  obtain ⟨_, hcontained, hret⟩ := bind_eq_ok_iff.1 h
  cases hret
  obtain ⟨new, rfl, hmade, hnodup, hselectors⟩ :=
    of_servicesOf hservices List.nodup_nil List.nodup_nil
  rw [List.append_nil, List.nodup_reverse] at hselectors
  exact ⟨names, hnames, (forall₂_of_mapM hmessages).imp fun _ _ h => of_messageOf h,
    (forall₂_of_mapM henums).imp fun _ _ h => of_enumOf h, hmade, hnodup, hselectors, hcontained⟩

theorem package_of_ofDeclarations {d : Declarations} (h : ofDeclarations d = .ok m) :
    m.package = d.package := by
  obtain ⟨names, -, h⟩ := bind_eq_ok_iff.1 h
  obtain ⟨messages, -, h⟩ := bind_eq_ok_iff.1 h
  obtain ⟨enums, -, h⟩ := bind_eq_ok_iff.1 h
  obtain ⟨services, -, h⟩ := bind_eq_ok_iff.1 h
  obtain ⟨_, -, hret⟩ := bind_eq_ok_iff.1 h
  cases hret
  rfl

/-- Messages and enumerations have the names of their declarations, without the dots. -/
theorem MadeOf.names {d : Declarations} {names : Names} (h : m.MadeOf d names) :
    m.messages.map (·.name) = d.messages.map (flattened ·.fullName) ∧
      m.enums.map (·.name) = d.enums.map (flattened ·.fullName) :=
  ⟨(map_eq_of_forall₂ (h.messages.imp fun _ _ hxy => hxy.name.symm)).symm,
    (map_eq_of_forall₂ (h.enums.imp fun _ _ hxy => hxy.name.symm)).symm⟩

/-- A model of declarations has all that readers of models guarantee. -/
theorem sound_of_ofDeclarations {d : Declarations} (h : ofDeclarations d = .ok m) : m.Sound := by
  obtain ⟨names, hnames, hm⟩ := madeOf_of_ofDeclarations h
  obtain ⟨hdeclared, hmnodup, henodup, -⟩ := of_namesOfDeclarations hnames
  obtain ⟨hmnames, henames⟩ := hm.names
  have hdecl : ∀ {t}, Resolved names t → t.Declared m :=
    fun ht => declared_of_resolved hdeclared hmnames henames ht
  refine ⟨?_, ?_, hm.nodup, fun s hs => ?_, ?_, ?_, hm.contained⟩
  · rw [hmnames]
    exact hmnodup
  · rw [henames]
    exact henodup
  · obtain ⟨x, -, hof⟩ := exists_of_forall₂ hm.services hs
    exact hof.nodup
  · intro spec hspec f hf
    obtain ⟨x, -, hof⟩ := exists_of_forall₂ hm.messages hspec
    obtain ⟨label, t, ht, heq⟩ := hof.resolved hf
    rw [heq]
    exact declared_labelled (hdecl ht) label
  · intro s hs x hx
    obtain ⟨sd, -, hof⟩ := exists_of_forall₂ hm.services hs
    obtain ⟨xd, -, hx⟩ := exists_of_forall₂ hof.methods hx
    exact ⟨hdecl (resolved_of_target? hx.request), hdecl (resolved_of_target? hx.response)⟩

theorem distinct_of_ofDeclarations {d : Declarations} (h : ofDeclarations d = .ok m) :
    m.Distinct := by
  obtain ⟨names, -, hm⟩ := madeOf_of_ofDeclarations h
  refine ⟨fun spec hspec => ?_, fun spec hspec => ?_⟩
  · obtain ⟨x, -, hof⟩ := exists_of_forall₂ hm.messages hspec
    exact hof.nodup
  · obtain ⟨e, -, he⟩ := exists_of_forall₂ hm.enums hspec
    exact he.nodup

theorem singlyOptional_of_ofDeclarations {d : Declarations} (h : ofDeclarations d = .ok m) :
    m.SinglyOptional := by
  obtain ⟨names, -, hm⟩ := madeOf_of_ofDeclarations h
  intro spec hspec f hf
  obtain ⟨x, -, hof⟩ := exists_of_forall₂ hm.messages hspec
  obtain ⟨label, t, ht, heq⟩ := hof.resolved hf
  rw [heq]
  exact singlyOptional_labelled ht label

/-- No message has the name of an enumeration. -/
theorem disjoint_of_ofDeclarations {d : Declarations} (h : ofDeclarations d = .ok m) :
    ∀ name ∈ m.messages.map (·.name), name ∉ m.enums.map (·.name) := by
  obtain ⟨names, hnames, hm⟩ := madeOf_of_ofDeclarations h
  obtain ⟨-, -, -, hdisjoint⟩ := of_namesOfDeclarations hnames
  obtain ⟨hmnames, henames⟩ := hm.names
  rw [hmnames, henames]
  exact fun name hmessage henum => hdisjoint name hmessage name henum rfl

/-- Each enumeration has a declaration. -/
theorem exists_enumOf {d : Declarations} (h : ofDeclarations d = .ok m) {spec : Enumeration}
    (hspec : spec ∈ m.enums) : ∃ e ∈ d.enums, EnumOf e spec := by
  obtain ⟨names, -, hm⟩ := madeOf_of_ofDeclarations h
  exact exists_of_forall₂ hm.enums hspec

/-! ### Texts -/

theorem sound_of_ofText {text : String} (h : ofText text = .ok m) : m.Sound := by
  obtain ⟨d, -, hm⟩ := bind_eq_ok_iff.1 h
  exact sound_of_ofDeclarations hm

theorem distinct_of_ofText {text : String} (h : ofText text = .ok m) : m.Distinct := by
  obtain ⟨d, -, hm⟩ := bind_eq_ok_iff.1 h
  exact distinct_of_ofDeclarations hm

theorem singlyOptional_of_ofText {text : String} (h : ofText text = .ok m) : m.SinglyOptional := by
  obtain ⟨d, -, hm⟩ := bind_eq_ok_iff.1 h
  exact singlyOptional_of_ofDeclarations hm

theorem length_variants_le_of_ofText {text : String} (h : ofText text = .ok m)
    {spec : Enumeration} (hspec : spec ∈ m.enums) : spec.variants.length ≤ text.length + 1 := by
  obtain ⟨d, hd, hm⟩ := bind_eq_ok_iff.1 h
  obtain ⟨e, he, hof⟩ := exists_enumOf hm hspec
  exact hof.length.trans (length_values_le hd he)

end Model

end FeltRelay.Schema
