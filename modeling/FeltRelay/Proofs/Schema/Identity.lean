import FeltRelay.Proofs.Schema.Ordered

/-!
# Models that declare the same

Two sound models declare the same exactly when they are equal once their declarations are put in
order of names (`same_iff_ordered_eq`).
-/

namespace FeltRelay.Schema.Model

open Entries (arranged mem_arranged arranged_eq_of_mem_iff)

theorem arranged_eq_iff {α : Type} [DecidableEq α] (key : α → String) {xs ys : List α}
    (hx : (xs.map key).Nodup) (hy : (ys.map key).Nodup) :
    arranged key xs = arranged key ys ↔ sameDeclarations xs ys = true := by
  rw [sameDeclarations_iff]
  constructor
  · intro h x
    rw [← mem_arranged key, h, mem_arranged]
  · intro h
    exact arranged_eq_of_mem_iff key hx hy h

theorem sameService_iff {s t : Service} (hs : (s.methods.map (·.name)).Nodup)
    (ht : (t.methods.map (·.name)).Nodup) : sameService s t = true ↔ s.ordered = t.ordered := by
  have hmethods := arranged_eq_iff (fun x : Method => x.name) hs ht
  rw [sameService, Bool.and_eq_true, decide_eq_true_eq, ← hmethods]
  obtain ⟨name, methods⟩ := s
  obtain ⟨name', methods'⟩ := t
  simp only [Service.ordered, Service.mk.injEq]

variable {m n : Model}

/-- Each service of one model is among those of the other, up to the order of methods. -/
theorem sameServices_iff (hm : m.Sound) (hn : n.Sound) :
    (m.services.all (fun s => n.services.any (sameService s)) &&
      n.services.all fun s => m.services.any (sameService s)) = true ↔
    m.ordered.services = n.ordered.services := by
  have hnames : ∀ {m : Model}, m.Sound →
      ((m.services.map Service.ordered).map (·.name)).Nodup := by
    intro m h
    rw [List.map_map]
    exact h.services
  refine Iff.trans ?_ (arranged_eq_iff (fun s : Service => s.name) (hnames hm) (hnames hn)).symm
  rw [sameDeclarations_iff]
  simp only [Bool.and_eq_true, List.all_eq_true, List.any_eq_true, List.mem_map]
  constructor
  · rintro ⟨hmn, hnm⟩ x
    constructor
    · rintro ⟨s, hs, rfl⟩
      obtain ⟨t, ht, hsame⟩ := hmn s hs
      exact ⟨t, ht, ((sameService_iff (hm.methods s hs) (hn.methods t ht)).1 hsame).symm⟩
    · rintro ⟨t, ht, rfl⟩
      obtain ⟨s, hs, hsame⟩ := hnm t ht
      exact ⟨s, hs, ((sameService_iff (hn.methods t ht) (hm.methods s hs)).1 hsame).symm⟩
  · intro h
    constructor
    · intro s hs
      obtain ⟨t, ht, heq⟩ := (h s.ordered).1 ⟨s, hs, rfl⟩
      exact ⟨t, ht, (sameService_iff (hm.methods s hs) (hn.methods t ht)).2 heq.symm⟩
    · intro t ht
      obtain ⟨s, hs, heq⟩ := (h t.ordered).2 ⟨t, ht, rfl⟩
      exact ⟨s, hs, (sameService_iff (hn.methods t ht) (hm.methods s hs)).2 heq.symm⟩

/-- Sound models declare the same if and only if they are equal in order of names. -/
theorem same_iff_ordered_eq (hm : m.Sound) (hn : n.Sound) :
    m.same n = true ↔ m.ordered = n.ordered := by
  have hmessages := arranged_eq_iff (fun s : Message => s.name) hm.messages hn.messages
  have henums := arranged_eq_iff (fun e : Enumeration => e.name) hm.enums hn.enums
  have hservices := sameServices_iff hm hn
  rw [same, Bool.and_assoc, Bool.and_eq_true, hservices, Bool.and_eq_true, Bool.and_eq_true,
    decide_eq_true_eq, ← hmessages, ← henums]
  simp only [ordered, Model.mk.injEq, and_assoc]

end FeltRelay.Schema.Model
