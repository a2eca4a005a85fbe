import FeltRelay.Proofs.Schema.Lock.RoundTrip
import FeltRelay.Proofs.Schema.Unambiguous

/-!
# Ambiguous locks

The reader of locks accepts every sound model, ambiguous or not, so a lock is no less and no more
ambiguous than the model that it was written of (`reads_iff_sound`). Where a definitions text with
two fields of one name or two methods of one selector is refused, a lock is not
(`reads_twins`).
-/

namespace FeltRelay.Schema

namespace Model

variable (m : Model)

/-- The ordered model has the same methods, in another order. -/
theorem perm_methods_ordered :
    (m.ordered.services.flatMap (·.methods)).Perm (m.services.flatMap (·.methods)) := by
  have hservices : (m.ordered.services.flatMap (·.methods)).Perm
      ((m.services.map Service.ordered).flatMap (·.methods)) :=
    (Entries.perm_arranged _ _).flatMap_right _
  refine hservices.trans ?_
  rw [List.flatMap_map]
  exact List.Perm.flatMap_left _ fun s _ => Entries.perm_arranged _ _

theorem unambiguous_ordered_iff : m.ordered.Unambiguous ↔ m.Unambiguous := by
  have hselectors : (m.ordered.methods.map (·.2.selector)).Perm (m.methods.map (·.2.selector)) := by
    rw [selectors_methods, selectors_methods]
    exact (perm_methods_ordered m).map _
  have hshort : ∀ n : Model, (∀ e ∈ n.methods, IsShortString e.2.selector) ↔
      ∀ s ∈ n.methods.map (·.2.selector), IsShortString s :=
    fun n => List.forall_mem_map.symm
  have htypes : (∀ name ∈ m.ordered.messages.map (·.name), name ∉ m.ordered.enums.map (·.name)) ↔
      ∀ name ∈ m.messages.map (·.name), name ∉ m.enums.map (·.name) := by
    simp only [List.mem_map, mem_ordered_messages, mem_ordered_enums]
  constructor
  · intro h
    refine ⟨⟨fun s hs => h.fields s (mem_ordered_messages.2 hs),
      fun e he => h.variants e (mem_ordered_enums.2 he)⟩, htypes.1 h.types,
      hselectors.nodup_iff.1 h.selectors, (hshort m).2 fun s hs => ?_⟩
    exact (hshort m.ordered).1 h.short s (hselectors.mem_iff.2 hs)
  · intro h
    refine ⟨⟨fun s hs => h.fields s (mem_ordered_messages.1 hs),
      fun e he => h.variants e (mem_ordered_enums.1 he)⟩, htypes.2 h.types,
      hselectors.nodup_iff.2 h.selectors, (hshort m.ordered).2 fun s hs => ?_⟩
    exact (hshort m).1 h.short s (hselectors.mem_iff.1 hs)

end Model

namespace Lock

/-- The lock of a model is read back as its ordered model exactly if the model is sound. Its being
unambiguous is not asked for, and is kept. -/
theorem reads_iff_sound (m : Model) :
    ((∃ l, ofText m.lock.text = .ok l ∧ l.model = m.ordered) ↔ m.Sound) ∧
      (m.ordered.Unambiguous ↔ m.Unambiguous) := by
  refine ⟨⟨?_, fun h => ?_⟩, Model.unambiguous_ordered_iff m⟩
  · rintro ⟨l, hl, hmodel⟩
    have hsound := sound_of_lock hl
    rw [hmodel] at hsound
    exact Model.sound_ordered_iff.1 hsound
  · have hlock : m.lock.model.Sound := h
    exact ⟨_, ofText_text hlock rfl, rfl⟩

/-- A model in which every kind of name is given twice: two fields, two variants, a message and an
enumeration, two selectors, one of which is too long besides. -/
def twins : Model where
  package := none
  messages := [⟨"Hue", [⟨"x", .scalar (.unsigned .w8)⟩, ⟨"x", .scalar .bool⟩]⟩]
  enums := [⟨"Hue", ["Red", "Red"]⟩]
  services := [⟨"A", [⟨"Paint", "paint_with_all_of_the_colours_there_are", "paint", "Hue", "Hue"⟩]⟩,
    ⟨"B", [⟨"Print", "paint_with_all_of_the_colours_there_are", "print", "Hue", "Hue"⟩]⟩]

theorem sound_twins : twins.Sound :=
  ⟨by decide, by decide, by decide, by decide, by unfold Model.Closed; decide, by decide,
    eq_ok_of_toOption (by decide)⟩

/-- The reader accepts the lock of `twins`, in which nothing is distinct and no selector short. -/
theorem reads_twins : ∃ l, ofText twins.lock.text = .ok l ∧
    ¬(∀ spec ∈ l.model.messages, spec.fieldNames.Nodup) ∧
    ¬(∀ spec ∈ l.model.enums, spec.variants.Nodup) ∧
    ¬(∀ name ∈ l.model.messages.map (·.name), name ∉ l.model.enums.map (·.name)) ∧
    ¬(l.model.methods.map (·.2.selector)).Nodup ∧
    ¬∀ e ∈ l.model.methods, IsShortString e.2.selector := by
  have hsound : twins.lock.model.Sound := sound_twins
  refine ⟨_, ofText_text hsound rfl, ?_⟩
  have hordered : twins.ordered = twins := by decide +kernel
  have hmodel : twins.lock.model.ordered = twins := hordered
  rw [hmodel]
  refine ⟨by decide, by decide, by decide, by decide, by decide +kernel⟩

end Lock

end FeltRelay.Schema
