import FeltRelay.Proofs.Schema.Containment
import FeltRelay.Proofs.Schema.Definitions

/-!
# Why declarations are refused

Each function that builds a part of a model refuses for few reasons. Only a number that two fields
share is reported at a place of the text (`of_ofDeclarations_error`), and only names that are taken
as duplicate types.
-/

namespace FeltRelay.Schema

namespace Definitions

variable {names : Names} {f : Failure}

theorem kind_of_resolve {reference owner : String} {scope : List String}
    (h : names.resolve reference scope owner = .error f) : f.kind = .unknownReference := by
  rw [resolve_eq] at h
  split at h
  · cases h
  · cases h
    rfl

theorem kind_of_methodMessage {owner reference : String} {t : Ty}
    (h : methodMessage owner reference t = .error f) : f.kind = .unknownReference := by
  cases t <;> cases h <;> rfl

/-- What a field is refused for: its name, its type, or its number, which is reported at its name. -/
def FieldRefused (decls : List FieldDecl) (f : Failure) : Prop :=
  f.kind = .duplicateMember ∨ f.kind = .unknownReference ∨
    ∃ d ∈ decls, f.place = .position d.position.line d.position.column

theorem FieldRefused.mono {decls decls' : List FieldDecl} (h : FieldRefused decls f)
    (hsub : decls ⊆ decls') : FieldRefused decls' f :=
  h.imp_right fun h => h.imp_right fun ⟨d, hd, hplace⟩ => ⟨d, hsub hd, hplace⟩

theorem fieldRefused_of_fieldsOf {owner : String} {scope : List String}
    {seen : List (String × Int)} {decls : List FieldDecl}
    (h : fieldsOf names owner scope seen decls = .error f) : FieldRefused decls f := by
  induction decls generalizing seen with
  | nil => cases h
  | cons d decls ih =>
    rw [fieldsOf] at h
    split at h
    · cases h
      exact .inl rfl
    dsimp only at h
    split at h
    · cases h
      exact .inr (.inr ⟨d, List.mem_cons_self .., rfl⟩)
    rcases bind_eq_error_iff.1 h with h | ⟨t, -, h⟩
    · exact .inr (.inl (kind_of_resolve h))
    rcases bind_eq_error_iff.1 h with h | ⟨others, -, h⟩
    · exact (ih h).mono (List.subset_cons_self ..)
    · cases h

theorem fieldRefused_of_messageOf {d : MessageDecl} (h : messageOf names d = .error f) :
    FieldRefused d.fields f := by
  rcases bind_eq_error_iff.1 h with h | ⟨fields, -, h⟩
  · exact fieldRefused_of_fieldsOf h
  · cases h

theorem kind_of_variantsOf {owner enum : String} {numbers : List Int} {variants : List String}
    {values : List (String × Int)}
    (h : variantsOf owner enum numbers variants values = .error f) : f.kind = .duplicateMember := by
  induction values generalizing numbers variants with
  | nil => cases h
  | cons e values ih =>
    rw [variantsOf] at h
    split at h
    · exact ih h
    dsimp only at h
    split at h
    · cases h
      rfl
    · exact ih h

theorem kind_of_enumOf {d : EnumDecl} (h : enumOf d = .error f) : f.kind = .duplicateMember := by
  rcases bind_eq_error_iff.1 h with h | ⟨variants, -, h⟩
  · exact kind_of_variantsOf h
  · cases h

theorem kind_of_methodsOf {service : String} {selectors : List String} {methods : List Method}
    {decls : List MethodDecl} (h : methodsOf names service selectors methods decls = .error f) :
    f.kind ∈ [.duplicateMember, .unknownReference, .selectorTooLong, .duplicateSelector] := by
  induction decls generalizing selectors methods with
  | nil => cases h
  | cons d decls ih =>
    rw [methodsOf] at h
    split at h
    · cases h
      simp [Failure.duplicateMember]
    dsimp only at h
    rcases bind_eq_error_iff.1 h with h | ⟨t, -, h⟩
    · simp [kind_of_resolve h]
    rcases bind_eq_error_iff.1 h with h | ⟨u, -, h⟩
    · simp [kind_of_resolve h]
    rcases bind_eq_error_iff.1 h with h | ⟨request, -, h⟩
    · simp [kind_of_methodMessage h]
    rcases bind_eq_error_iff.1 h with h | ⟨response, -, h⟩
    · simp [kind_of_methodMessage h]
    split at h
    · cases h
      simp [Failure.selectorTooLong]
    split at h
    · cases h
      simp [Failure.duplicateSelector]
    · exact ih h

theorem kind_of_servicesOf {selectors : List String} {services : List Service}
    {decls : List ServiceDecl} (h : servicesOf names selectors services decls = .error f) :
    f.kind ∈ [.duplicateType, .duplicateMember, .unknownReference, .selectorTooLong,
      .duplicateSelector] := by
  induction decls generalizing selectors services with
  | nil => cases h
  | cons d decls ih =>
    rw [servicesOf] at h
    split at h
    · cases h
      simp [Failure.duplicateType]
    dsimp only at h
    rcases bind_eq_error_iff.1 h with h | ⟨r, -, h⟩
    · exact List.mem_cons_of_mem _ (kind_of_methodsOf h)
    · exact ih h

theorem kind_of_addAll {all acc : List (String × Declared)}
    (h : all.foldlM (fun acc e => Names.add acc e.1 e.2) acc = .error f) :
    f.kind = .duplicateType := by
  induction all generalizing acc with
  | nil => cases h
  | cons e all ih =>
    rw [List.foldlM_cons] at h
    rcases bind_eq_error_iff.1 h with h | ⟨acc', -, h⟩
    · rw [Names.add] at h
      split at h
      · cases h
        rfl
      · cases h
    · exact ih h

theorem kind_of_namesOfDeclarations {d : Declarations}
    (h : Names.ofDeclarations d = .error f) : f.kind = .duplicateType := by
  rcases bind_eq_error_iff.1 h with h | ⟨declared, -, h⟩
  · exact kind_of_addAll h
  · cases h

end Definitions

namespace Model

open Definitions

variable {m : Model} {f : Failure}

theorem kind_of_checkContainment (h : m.checkContainment = .error f) :
    f.kind = .unsupportedField := by
  obtain ⟨owner, field, inner, rfl, -⟩ := onCycle_of_error h
  rfl

/-- Declarations are refused with a place of the text only for a number that two fields share. -/
theorem of_ofDeclarations_error {d : Declarations} (h : ofDeclarations d = .error f) :
    f.kind ≠ .parse ∨ ∃ x ∈ d.messages, ∃ e ∈ x.fields,
      f.place = .position e.position.line e.position.column := by
  rcases bind_eq_error_iff.1 h with h | ⟨names, -, h⟩
  · exact .inl (by simp [kind_of_namesOfDeclarations h])
  rcases bind_eq_error_iff.1 h with h | ⟨messages, -, h⟩
  · obtain ⟨x, hx, hrefused⟩ := exists_of_mapM_error h
    rcases fieldRefused_of_messageOf hrefused with hkind | hkind | ⟨e, he, hplace⟩
    · exact .inl (by simp [hkind])
    · exact .inl (by simp [hkind])
    · exact .inr ⟨x, hx, e, he, hplace⟩
  rcases bind_eq_error_iff.1 h with h | ⟨enums, -, h⟩
  · obtain ⟨e, -, hrefused⟩ := exists_of_mapM_error h
    exact .inl (by simp [kind_of_enumOf hrefused])
  rcases bind_eq_error_iff.1 h with h | ⟨services, -, h⟩
  · refine .inl fun hparse => ?_
    have hkind := kind_of_servicesOf h
    rw [hparse] at hkind
    simp at hkind
  rcases bind_eq_error_iff.1 h with h | ⟨_, -, h⟩
  · exact .inl (by simp [kind_of_checkContainment h])
  · cases h

end Model

end FeltRelay.Schema
