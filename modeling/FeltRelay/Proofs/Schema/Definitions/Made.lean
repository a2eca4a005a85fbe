import FeltRelay.Proofs.Result
import FeltRelay.Schema.Definitions
import Mathlib.Data.List.Nodup

/-!
# What a model is made of

A reference stands for a scalar, or for what its local name is found to be from within its scope.
Fields, messages, enumerations, methods and services of a model are described by their declarations
and by what the references of these stand for, once for each function that builds them.
-/

namespace FeltRelay.Schema.Definitions

variable {names names' : Names}

/-! ### Names -/

section

variable {α : Type} {key : α → String} {xs : List α}

theorem not_mem_map_of_any {k : String} (h : ¬xs.any (key · = k) = true) : k ∉ xs.map key := by
  intro hmem
  obtain ⟨x, hx, heq⟩ := List.mem_map.1 hmem
  exact h (List.any_eq_true.2 ⟨x, hx, by simp [heq]⟩)

/-- What is added under a name of its own leaves names distinct. -/
theorem nodup_map_append (hnodup : (xs.map key).Nodup) {x : α} (h : key x ∉ xs.map key) :
    ((xs ++ [x]).map key).Nodup := by
  rw [List.map_append, List.map_singleton, ← List.concat_eq_append]
  exact hnodup.concat h

end

/-! ### References -/

/-- What a name is found to be from within a scope. -/
def Names.find? (names : Names) (scope : List String) (name : String) :
    Option (Declared × String) :=
  (enclosing scope).findSome? fun around =>
    let fullName := dotted (around ++ [name])
    (names.declared.lookup fullName).map fun d => (d, flattened fullName)

def Declared.ty : Declared × String → Ty
  | (.message, flat) => .message flat
  | (.enum, flat) => .enum flat

theorem Declared.ty_injective : Function.Injective Declared.ty := by
  rintro ⟨_ | _, flat⟩ ⟨_ | _, flat'⟩ h <;> cases h <;> rfl

/-- What a reference stands for within a scope. -/
def Names.target? (names : Names) (scope : List String) (reference : String) : Option Ty :=
  match scalarSpellings.lookup reference with
  | some s => some (.scalar s)
  | none => (names.find? scope (names.localName reference)).map Declared.ty

theorem resolve_eq (names : Names) (reference : String) (scope : List String) (owner : String) :
    names.resolve reference scope owner =
      match names.target? scope reference with
      | some t => .ok t
      | none => .error (.unknownReference owner reference) := by
  unfold Names.resolve Names.target?
  cases scalarSpellings.lookup reference with
  | some s => rfl
  | none =>
    dsimp only
    rw [Names.find?]
    split <;> rename_i hfound <;> rw [hfound] <;> rfl

theorem resolve_eq_ok_iff {reference : String} {scope : List String} {owner : String} {t : Ty} :
    names.resolve reference scope owner = .ok t ↔ names.target? scope reference = some t := by
  rw [resolve_eq]
  cases names.target? scope reference <;> simp

theorem resolve_congr {reference : String} {scope : List String}
    (h : names'.target? scope reference = names.target? scope reference) (owner : String) :
    names'.resolve reference scope owner = names.resolve reference scope owner := by
  rw [resolve_eq, resolve_eq, h]

/-! ### Messages -/

/-- A field of the model and its declaration. -/
def FieldOf (names : Names) (scope : List String) (d : FieldDecl) (f : Field) : Prop :=
  ∃ t, names.target? scope d.typeName = some t ∧ f = ⟨d.name, labelled d.label t⟩

theorem fieldsOf_cons_eq_ok_iff {owner : String} {scope : List String}
    {seen : List (String × Int)} {d : FieldDecl} {decls : List FieldDecl} {fields : List Field} :
    fieldsOf names owner scope seen (d :: decls) = .ok fields ↔
      (d.name ∉ seen.map (·.1) ∧ d.number ∉ seen.map (·.2)) ∧ ∃ f others,
        FieldOf names scope d f ∧
        fieldsOf names owner scope ((d.name, d.number) :: seen) decls = .ok others ∧
        fields = f :: others := by
  have hname : seen.any (·.1 = d.name) = true ↔ d.name ∈ seen.map (·.1) := by simp
  have hnumber : seen.any (·.2 = d.number) = true ↔ d.number ∈ seen.map (·.2) := by simp
  rw [fieldsOf]
  by_cases hseen : d.name ∈ seen.map (·.1)
  · rw [if_pos (hname.2 hseen)]
    exact iff_of_false (nomatch ·) fun h => h.1.1 hseen
  rw [if_neg (mt hname.1 hseen)]
  dsimp only
  by_cases hused : d.number ∈ seen.map (·.2)
  · rw [if_pos (hnumber.2 hused)]
    exact iff_of_false (nomatch ·) fun h => h.1.2 hused
  rw [if_neg (mt hnumber.1 hused)]
  constructor
  · intro h
    obtain ⟨t, ht, h⟩ := bind_eq_ok_iff.1 h
    obtain ⟨others, hothers, hret⟩ := bind_eq_ok_iff.1 h
    cases hret
    exact ⟨⟨hseen, hused⟩, _, others, ⟨t, resolve_eq_ok_iff.1 ht, rfl⟩, hothers, rfl⟩
  · rintro ⟨-, _, others, ⟨t, ht, rfl⟩, hothers, rfl⟩
    exact bind_eq_ok_iff.2 ⟨t, resolve_eq_ok_iff.2 ht, bind_eq_ok_iff.2 ⟨others, hothers, rfl⟩⟩

/-- Fields have distinct names, other than those before. -/
theorem of_fieldsOf {owner : String} {scope : List String} {seen : List (String × Int)}
    {decls : List FieldDecl} {fields : List Field}
    (h : fieldsOf names owner scope seen decls = .ok fields) :
    List.Forall₂ (FieldOf names scope) decls fields ∧ (fields.map (·.name)).Nodup ∧
      ∀ f ∈ fields, f.name ∉ seen.map (·.1) := by
  induction decls generalizing seen fields with
  | nil =>
    cases h
    exact ⟨.nil, List.nodup_nil, by simp⟩
  | cons d decls ih =>
    obtain ⟨⟨hseen, -⟩, f, others, hf, hothers, rfl⟩ := fieldsOf_cons_eq_ok_iff.1 h
    obtain ⟨hmade, hnodup, hfresh⟩ := ih hothers
    have hname : f.name = d.name := by
      obtain ⟨t, -, rfl⟩ := hf
      rfl
    refine ⟨.cons hf hmade, ?_, fun g hg => ?_⟩
    · rw [List.map_cons, List.nodup_cons]
      refine ⟨fun hmem => ?_, hnodup⟩
      obtain ⟨g, hg, heq⟩ := List.mem_map.1 hmem
      refine hfresh g hg ?_
      rw [heq, hname]
      exact List.mem_cons_self ..
    · rcases List.mem_cons.1 hg with rfl | hg
      · rwa [hname]
      · exact fun hmem => hfresh g hg (List.mem_cons_of_mem _ hmem)

theorem fieldsOf_congr {scope : List String} {decls : List FieldDecl}
    (h : ∀ d ∈ decls, names'.target? scope d.typeName = names.target? scope d.typeName)
    (owner : String) (seen : List (String × Int)) :
    fieldsOf names' owner scope seen decls = fieldsOf names owner scope seen decls := by
  induction decls generalizing seen with
  | nil => rfl
  | cons d decls ih =>
    rw [fieldsOf, fieldsOf, resolve_congr (h d (List.mem_cons_self ..)),
      ih fun e he => h e (List.mem_cons_of_mem _ he)]

/-- A message of the model and its declaration. -/
structure MessageOf (names : Names) (d : MessageDecl) (spec : Message) : Prop where
  name : spec.name = flattened d.fullName
  nodup : spec.fieldNames.Nodup
  fields : List.Forall₂ (FieldOf names d.scope) d.fields spec.fields

theorem of_messageOf {d : MessageDecl} {spec : Message} (h : messageOf names d = .ok spec) :
    MessageOf names d spec := by
  obtain ⟨fields, hfields, hret⟩ := bind_eq_ok_iff.1 h
  cases hret
  obtain ⟨hmade, hnodup, -⟩ := of_fieldsOf hfields
  exact ⟨rfl, hnodup, hmade⟩

/-! ### Enumerations -/

/-- Variants are distinct, no more than the values, and named after them. -/
theorem of_variantsOf {owner enum : String} {numbers : List Int} {variants : List String}
    {values : List (String × Int)} {out : List String}
    (h : variantsOf owner enum numbers variants values = .ok out) (hnodup : variants.Nodup) :
    out.Nodup ∧ out.length ≤ variants.length + values.length ∧
      ∀ v ∈ out, v ∈ variants ∨ ∃ x ∈ values, v = variantName enum x.1 := by
  induction values generalizing numbers variants with
  | nil =>
    cases h
    exact ⟨hnodup, Nat.le_add_right .., fun _ hv => .inl hv⟩
  | cons e values ih =>
    rw [variantsOf] at h
    split at h
    · obtain ⟨hout, hlen, hnames⟩ := ih h hnodup
      refine ⟨hout, ?_, fun v hv => (hnames v hv).imp_right fun ⟨x, hx, heq⟩ =>
        ⟨x, List.mem_cons_of_mem _ hx, heq⟩⟩
      rw [List.length_cons]
      omega
    · dsimp only at h
      split at h
      · cases h
      · rename_i hfree
        have hnew : (variants ++ [variantName enum e.1]).Nodup := by
          rw [← List.concat_eq_append]
          exact hnodup.concat (by simpa using hfree)
        obtain ⟨hout, hlen, hnames⟩ := ih h hnew
        refine ⟨hout, ?_, fun v hv => ?_⟩
        · rw [List.length_append, List.length_singleton] at hlen
          rw [List.length_cons]
          omega
        · rcases hnames v hv with hmem | ⟨x, hx, heq⟩
          · rcases List.mem_append.1 hmem with hmem | hmem
            · exact .inl hmem
            · exact .inr ⟨e, List.mem_cons_self .., List.mem_singleton.1 hmem⟩
          · exact .inr ⟨x, List.mem_cons_of_mem _ hx, heq⟩

/-- What an enumeration has of its declaration. -/
structure EnumOf (d : EnumDecl) (spec : Enumeration) : Prop where
  name : spec.name = flattened d.fullName
  nodup : spec.variants.Nodup
  length : spec.variants.length ≤ d.values.length
  named : ∀ v ∈ spec.variants, ∃ x ∈ d.values, v = variantName (lastWord d.fullName) x.1

theorem of_enumOf {d : EnumDecl} {spec : Enumeration} (h : enumOf d = .ok spec) :
    EnumOf d spec := by
  obtain ⟨variants, hvariants, hret⟩ := bind_eq_ok_iff.1 h
  cases hret
  obtain ⟨hnodup, hlen, hnames⟩ := of_variantsOf hvariants List.nodup_nil
  exact ⟨rfl, hnodup, by simpa using hlen, fun v hv => (hnames v hv).resolve_left List.not_mem_nil⟩

/-! ### Services -/

/-- A method of the model and its declaration. -/
structure MethodOf (names : Names) (d : MethodDecl) (x : Method) : Prop where
  name : x.name = d.name
  selector : x.selector = Naming.selectorOf d.name
  path : x.path = Naming.pathOf d.name
  length : x.selector.length ≤ Naming.maxSelectorBytes
  request : names.target? [] d.request = some (.message x.request)
  response : names.target? [] d.response = some (.message x.response)

theorem methodMessage_eq_ok_iff {owner reference name : String} {t : Ty} :
    methodMessage owner reference t = .ok name ↔ t = .message name := by
  cases t <;> simp [methodMessage]

theorem exists_of_methodsOf_cons {service : String} {selectors : List String}
    {methods : List Method} {d : MethodDecl} {decls : List MethodDecl}
    {r : List String × List Method}
    (h : methodsOf names service selectors methods (d :: decls) = .ok r) :
    ∃ x, MethodOf names d x ∧ x.name ∉ methods.map (·.name) ∧ x.selector ∉ selectors ∧
      methodsOf names service (x.selector :: selectors) (methods ++ [x]) decls = .ok r := by
  rw [methodsOf] at h
  split at h
  · cases h
  rename_i hname
  dsimp only at h
  obtain ⟨t, ht, h⟩ := bind_eq_ok_iff.1 h
  obtain ⟨u, hu, h⟩ := bind_eq_ok_iff.1 h
  obtain ⟨request, hrequest, h⟩ := bind_eq_ok_iff.1 h
  obtain ⟨response, hresponse, h⟩ := bind_eq_ok_iff.1 h
  split at h
  · cases h
  rename_i hlen
  split at h
  · cases h
  rename_i hfree
  rw [methodMessage_eq_ok_iff.1 hrequest] at ht
  rw [methodMessage_eq_ok_iff.1 hresponse] at hu
  have hselector : Naming.selectorOf d.name ∉ selectors := by simpa using hfree
  exact ⟨⟨d.name, Naming.selectorOf d.name, Naming.pathOf d.name, request, response⟩,
    ⟨rfl, rfl, rfl, Nat.le_of_not_lt hlen, resolve_eq_ok_iff.1 ht, resolve_eq_ok_iff.1 hu⟩,
    not_mem_map_of_any hname, hselector, h⟩

/-- Methods are made one by one. Their names stay distinct, and so do the selectors that are carried
along. -/
theorem of_methodsOf {service : String} {selectors : List String} {methods : List Method}
    {decls : List MethodDecl} {r : List String × List Method}
    (h : methodsOf names service selectors methods decls = .ok r)
    (hnames : (methods.map (·.name)).Nodup) (hselectors : selectors.Nodup) :
    ∃ new, r = ((new.map (·.selector)).reverse ++ selectors, methods ++ new) ∧
      List.Forall₂ (MethodOf names) decls new ∧ (r.2.map (·.name)).Nodup ∧ r.1.Nodup := by
  induction decls generalizing selectors methods with
  | nil =>
    cases h
    exact ⟨[], by simp, .nil, hnames, hselectors⟩
  | cons d decls ih =>
    obtain ⟨x, hx, hname, hselector, h⟩ := exists_of_methodsOf_cons h
    obtain ⟨new, hr, hnew, hnodup⟩ :=
      ih h (nodup_map_append hnames hname) (List.nodup_cons.2 ⟨hselector, hselectors⟩)
    exact ⟨x :: new, by simp [hr], .cons hx hnew, hnodup⟩

theorem methodsOf_congr {decls : List MethodDecl}
    (h : ∀ d ∈ decls, names'.target? [] d.request = names.target? [] d.request ∧
      names'.target? [] d.response = names.target? [] d.response)
    (service : String) (selectors : List String) (methods : List Method) :
    methodsOf names' service selectors methods decls =
      methodsOf names service selectors methods decls := by
  induction decls generalizing selectors methods with
  | nil => rfl
  | cons d decls ih =>
    obtain ⟨hrequest, hresponse⟩ := h d (List.mem_cons_self ..)
    simp only [methodsOf, resolve_congr hrequest, resolve_congr hresponse,
      ih fun e he => h e (List.mem_cons_of_mem _ he)]

/-- A service of the model and its declaration. -/
structure ServiceOf (names : Names) (d : ServiceDecl) (s : Service) : Prop where
  name : s.name = d.name
  nodup : (s.methods.map (·.name)).Nodup
  methods : List.Forall₂ (MethodOf names) d.methods s.methods

/-- Services are made one by one, with selectors that are distinct across all of them. -/
theorem of_servicesOf {selectors : List String} {services out : List Service}
    {decls : List ServiceDecl} (h : servicesOf names selectors services decls = .ok out)
    (hnames : (services.map (·.name)).Nodup) (hselectors : selectors.Nodup) :
    ∃ new, out = services ++ new ∧ List.Forall₂ (ServiceOf names) decls new ∧
      (out.map (·.name)).Nodup ∧
      (((new.flatMap (·.methods)).map (·.selector)).reverse ++ selectors).Nodup := by
  induction decls generalizing selectors services with
  | nil =>
    cases h
    exact ⟨[], by simp, .nil, hnames, by simpa using hselectors⟩
  | cons d decls ih =>
    rw [servicesOf] at h
    split at h
    · cases h
    rename_i hname
    have hfree : ¬services.any (·.name = d.name) = true := by
      intro hany
      exact hname (by rw [hany, Bool.true_or])
    dsimp only at h
    obtain ⟨r, hmethods, h⟩ := bind_eq_ok_iff.1 h
    obtain ⟨own, rfl, hown, hnodup, hselectors'⟩ := of_methodsOf hmethods List.nodup_nil hselectors
    obtain ⟨new, rfl, hnew, hnames', hall⟩ :=
      ih h (nodup_map_append hnames (not_mem_map_of_any hfree)) hselectors'
    exact ⟨⟨d.name, own⟩ :: new, by simp, .cons ⟨rfl, hnodup, hown⟩ hnew, hnames',
      by simpa using hall⟩

theorem servicesOf_congr (hdeclared : names'.declared = names.declared) {decls : List ServiceDecl}
    (h : ∀ s ∈ decls, ∀ d ∈ s.methods, names'.target? [] d.request = names.target? [] d.request ∧
      names'.target? [] d.response = names.target? [] d.response)
    (selectors : List String) (services : List Service) :
    servicesOf names' selectors services decls = servicesOf names selectors services decls := by
  induction decls generalizing selectors services with
  | nil => rfl
  | cons s decls ih =>
    simp only [servicesOf, hdeclared, methodsOf_congr (h s (List.mem_cons_self ..)),
      ih fun e he => h e (List.mem_cons_of_mem _ he)]

end FeltRelay.Schema.Definitions
