import FeltRelay.Proofs.Entries.Sorted
import FeltRelay.Proofs.Schema.Containment
import FeltRelay.Proofs.Schema.WellFormed

/-!
# Models in order of names

A model whose declarations are put in order of their names declares the same (`same_ordered`), and
what readers guarantee of a model holds of it (`Sound.ordered`).
-/

namespace FeltRelay.Schema

open Entries (arranged mem_arranged)

/-- A service with its methods in order of their names. -/
def Service.ordered (s : Service) : Service := { s with methods := arranged (·.name) s.methods }

namespace Model

/-- A model with all declarations in order of their names. Fields and variants keep their places. -/
def ordered (m : Model) : Model where
  package := m.package
  messages := arranged (·.name) m.messages
  enums := arranged (·.name) m.enums
  services := arranged (·.name) (m.services.map Service.ordered)

variable (m : Model)

theorem ordered_ordered : m.ordered.ordered = m.ordered := by
  have htwice : Service.ordered ∘ Service.ordered = Service.ordered := by
    funext s
    simp only [Function.comp_apply, Service.ordered, Entries.arranged_arranged]
  have hservices : arranged (·.name) (m.ordered.services.map Service.ordered) =
      m.ordered.services := by
    rw [ordered, Entries.arranged_map (fun s : Service => s.name) (f := Service.ordered)
      (fun _ => rfl), Entries.arranged_arranged, ← Entries.arranged_map (fun s : Service => s.name)
      (f := Service.ordered) (fun _ => rfl), List.map_map, htwice]
  rw [ordered, hservices]
  simp only [ordered, Entries.arranged_arranged]

theorem sameDeclarations_iff {α : Type} [DecidableEq α] {xs ys : List α} :
    sameDeclarations xs ys = true ↔ ∀ x, x ∈ xs ↔ x ∈ ys := by
  simp only [sameDeclarations, Bool.and_eq_true, List.all_eq_true, List.contains_iff_mem]
  constructor
  · rintro ⟨hxy, hyx⟩ x
    exact ⟨hxy x, hyx x⟩
  · intro h
    exact ⟨fun x hx => (h x).1 hx, fun x hx => (h x).2 hx⟩

theorem sameService_ordered (s : Service) :
    sameService s.ordered s = true ∧ sameService s s.ordered = true := by
  have hmem : ∀ x, x ∈ s.ordered.methods ↔ x ∈ s.methods := fun _ => mem_arranged _
  simp only [sameService, Bool.and_eq_true, decide_eq_true_eq]
  exact ⟨⟨rfl, sameDeclarations_iff.2 hmem⟩,
    ⟨rfl, sameDeclarations_iff.2 fun x => (hmem x).symm⟩⟩

/-- The ordered model declares the same. -/
theorem same_ordered : m.ordered.same m = true := by
  have hservices : ∀ s, s ∈ m.ordered.services ↔ ∃ t ∈ m.services, t.ordered = s :=
    fun s => (mem_arranged _).trans List.mem_map
  simp only [same, Bool.and_eq_true, decide_eq_true_eq, List.all_eq_true, List.any_eq_true]
  refine ⟨⟨⟨⟨rfl, sameDeclarations_iff.2 fun x => mem_arranged _⟩,
    sameDeclarations_iff.2 fun x => mem_arranged _⟩, fun s hs => ?_⟩, fun s hs => ?_⟩
  · obtain ⟨t, ht, rfl⟩ := (hservices s).1 hs
    exact ⟨t, ht, (sameService_ordered t).1⟩
  · exact ⟨s.ordered, (hservices _).2 ⟨s, hs, rfl⟩, (sameService_ordered s).2⟩

theorem message?_ordered (name : String) : m.ordered.message? name = m.message? name :=
  Entries.find?_arranged _ _ _

theorem enum?_ordered (name : String) : m.ordered.enum? name = m.enum? name :=
  Entries.find?_arranged _ _ _

theorem declared_ordered_iff (t : Ty) : t.Declared m.ordered ↔ t.Declared m := by
  induction t with
  | scalar s => rfl
  | message name => rw [Ty.Declared, Ty.Declared, message?_ordered]
  | enum name => rw [Ty.Declared, Ty.Declared, enum?_ordered]
  | optional t ih => exact ih
  | array t ih => exact ih

theorem plainFields_ordered (name : String) : m.ordered.plainFields name = m.plainFields name := by
  rw [plainFields, plainFields, message?_ordered]

variable {m}

theorem mem_ordered_messages {s : Message} : s ∈ m.ordered.messages ↔ s ∈ m.messages :=
  mem_arranged _

theorem mem_ordered_enums {e : Enumeration} : e ∈ m.ordered.enums ↔ e ∈ m.enums := mem_arranged _

theorem forall_ordered_services {p : Service → Prop} :
    (∀ s ∈ m.ordered.services, p s) ↔ ∀ s ∈ m.services, p s.ordered := by
  have hmem : ∀ s, s ∈ m.ordered.services ↔ ∃ t ∈ m.services, t.ordered = s :=
    fun s => (mem_arranged _).trans List.mem_map
  constructor
  · intro h s hs
    exact h _ ((hmem _).2 ⟨s, hs, rfl⟩)
  · intro h s hs
    obtain ⟨t, ht, rfl⟩ := (hmem s).1 hs
    exact h t ht

theorem acyclic_ordered_iff : m.ordered.Acyclic ↔ m.Acyclic := by
  have hcontains : m.ordered.Contains = m.Contains := by
    funext a b
    simp only [Contains, plainFields_ordered]
  rw [Acyclic, Acyclic, hcontains]

/-- The ordered model is sound exactly if the model is. -/
theorem sound_ordered_iff : m.ordered.Sound ↔ m.Sound := by
  have hmessages : (m.ordered.messages.map (·.name)).Nodup ↔ (m.messages.map (·.name)).Nodup :=
    ((Entries.perm_arranged _ _).map _).nodup_iff
  have henums : (m.ordered.enums.map (·.name)).Nodup ↔ (m.enums.map (·.name)).Nodup :=
    ((Entries.perm_arranged _ _).map _).nodup_iff
  have hnames : (m.ordered.services.map (·.name)).Perm (m.services.map (·.name)) := by
    have hperm := (Entries.perm_arranged (·.name) (m.services.map Service.ordered)).map (·.name)
    rwa [List.map_map] at hperm
  have hmethods : ∀ s : Service,
      (s.ordered.methods.map (·.name)).Nodup ↔ (s.methods.map (·.name)).Nodup :=
    fun s => ((Entries.perm_arranged _ _).map _).nodup_iff
  have hrequests : ∀ s : Service, (∀ x ∈ s.ordered.methods,
      (m.ordered.message? x.request).isSome ∧ (m.ordered.message? x.response).isSome) ↔
      ∀ x ∈ s.methods, (m.message? x.request).isSome ∧ (m.message? x.response).isSome := by
    intro s
    simp only [message?_ordered, Service.ordered, mem_arranged]
  have hclosed : m.ordered.Closed ↔ m.Closed := by
    simp only [Closed, declared_ordered_iff, mem_ordered_messages]
  have hcontained : m.ordered.checkContainment = .ok () ↔ m.checkContainment = .ok () := by
    rw [checkContainment_eq_ok_iff, checkContainment_eq_ok_iff, acyclic_ordered_iff]
  constructor
  · intro h
    exact ⟨hmessages.1 h.messages, henums.1 h.enums, hnames.nodup_iff.1 h.services,
      fun s hs => (hmethods s).1 (forall_ordered_services.1 h.methods s hs), hclosed.1 h.closed,
      fun s hs => (hrequests s).1 (forall_ordered_services.1 h.requests s hs),
      hcontained.1 h.contained⟩
  · intro h
    exact ⟨hmessages.2 h.messages, henums.2 h.enums, hnames.nodup_iff.2 h.services,
      forall_ordered_services.2 fun s hs => (hmethods s).2 (h.methods s hs), hclosed.2 h.closed,
      forall_ordered_services.2 fun s hs => (hrequests s).2 (h.requests s hs),
      hcontained.2 h.contained⟩

/-- What a reader guarantees of a model holds of the ordered one. -/
theorem Sound.ordered (h : m.Sound) : m.ordered.Sound := sound_ordered_iff.2 h

end Model

end FeltRelay.Schema
